import Mathlib.Data.List.Basic
import NetLib.Settings.Checked
import NetLib.Settings.RoundTrip
/-!
# What `Parse` makes of any text

`Parse` takes the words of the text, and where it fails, and how, is told by
them alone.
-/

namespace NetLib

namespace SettingParser

open WChar

variable {p q : SettingParser} {access : SettingParser → See} {done : Groups} {l : List WString}
variable {e : Ending} {closed : Prop} {text : WString} {behind : ℕ → WChar} {n : ℕ}

/-- Where a reader that has come to the end is. -/
def Stops (p : SettingParser) : Ending → Prop
  | .null rest => Shows p p.bufferIndex rest
  | .unclosed => p.bufferIndex = p.bufferSize

/-- Accesses go below `bufferSize`, and where they do not go, `Parse` reads
behind the buffer. -/
structure Accesses (access : SettingParser → See) : Prop where
  sees : ∀ p : SettingParser, p.Sees (access p)
  fails : ∀ p i f, access p i = .error f → f = .readPast i

theorem accesses_anywhere : Accesses anywhere :=
  ⟨sees_anywhere, fun p i f h => by cases h⟩

theorem accesses_inside : Accesses inside := by
  refine ⟨sees_inside, fun p i f h => ?_⟩
  rw [inside] at h
  split at h
  · cases h
  · exact (Except.error.inj h).symm

/-- What a call of `GetTok` makes of the words that are left. -/
inductive NextTok (p : SettingParser) (access : SettingParser → See) (e : Ending) :
    List WString → Except Failure (Option WString × SettingParser) → Prop
  | none {i : ℕ} (hstop : Stops (p.moveTo i) e)
      (hgo : e = .unclosed → ∃ c, access p p.bufferSize = .ok c) :
      NextTok p access e [] (.ok (none, p.moveTo i))
  | past (he : e = .unclosed) {i : ℕ} (hgo : access p p.bufferSize = .error (.readPast i)) :
      NextTok p access e [] (.error (.readPast i))
  | word {w : WString} {l : List WString} {i : ℕ} (hshort : Short w)
      (h : Left (p.moveTo i) i (l, e)) : NextTok p access e (w :: l) (.ok (some w, p.moveTo i))
  | long {w : WString} {l : List WString} (hlong : ¬Short w) :
      NextTok p access e (w :: l) (.error (.parser .invalidParameter))

theorem Left.moveTo {r : List WString × Ending} {i : ℕ} (h : Left p i r) :
    Left (p.moveTo i) i r := by
  cases h with
  | text h => exact .text h.moveTo
  | past => exact .past

theorem Accesses.nextTok (ha : Accesses access) (h : Left p p.bufferIndex (l, e)) :
    NextTok p access e l (p.nextTokBy access) := by
  have htakes := (ha.sees p).getTok h (n := p.bufferSize + 1) (by omega)
  obtain ⟨r, hr⟩ : ∃ r, (l, e) = r := ⟨_, rfl⟩
  obtain ⟨hl, he⟩ : l = r.1 ∧ e = r.2 := by
    rw [← hr]
    exact ⟨rfl, rfl⟩
  rw [hr] at htakes
  rw [hl, he, nextTokBy]
  generalize p.getTokBy (access p) (p.bufferSize + 1) p.bufferIndex = res at htakes
  cases htakes with
  | null h => exact .none h.moveTo (by simp)
  | unclosed =>
    cases hgo : access p p.bufferSize with
    | error f =>
      obtain rfl := ha.fails _ _ _ hgo
      exact .past rfl hgo
    | ok c => exact .none rfl fun _ => ⟨c, hgo⟩
  | word hshort h => exact .word hshort h.moveTo
  | long hlong => exact .long hlong

/-! ## The loop -/

/-- How `Parse` ends in a buffer of `size` characters with the words `l` before
it. -/
inductive Parsed (closed : Prop) (size : ℕ) (done : Groups) (l : List WString) (e : Ending) :
    Except Failure SettingParser → Prop
  | table {q : SettingParser} {table : Groups} (hsound : Sound closed done.length l)
      (henter : enter done l = some table) (hle : table.length ≤ MAXGROUPSIZE)
      (hfilled : Filled q table) (hstop : Stops q e) (hsize : q.bufferSize = size) :
      Parsed closed size done l e (.ok q)
  | thrown {c : WChar} (hsound : Sound closed done.length l) (henter : enter done l = none) :
      Parsed closed size done l e (.error (.parser (.expectedColon c)))
  | failed {f : Failure} (hsound : ¬Sound closed done.length l)
      (hf : ∀ c, f ≠ .parser (.expectedColon c)) : Parsed closed size done l e (.error f)

theorem Parsed.congr {size : ℕ} {done' : Groups} {l' : List WString}
    {r : Except Failure SettingParser} (h : Parsed closed size done l e r)
    (hsound : Sound closed done.length l ↔ Sound closed done'.length l')
    (henter : enter done l = enter done' l') : Parsed closed size done' l' e r := by
  cases h with
  | table hs he hle hfilled hstop hsize =>
    exact .table (hsound.1 hs) (henter ▸ he) hle hfilled hstop hsize
  | thrown hs he => exact .thrown (hsound.1 hs) (henter ▸ he)
  | failed hs hf => exact .failed (fun h => hs (hsound.2 h)) hf

variable {key op value : WString} {groups : ℕ}

theorem sound_cons : Sound closed groups (key :: l) ↔ Short key ∧
    if key.headD 0 = closeBrace then Sound closed groups l
    else match l with
      | [] => closed
      | op :: l => Short op ∧ (op.headD 0 = colon → match l with
        | [] => closed
        | value :: l => Short value ∧
          if value.headD 0 = openBrace then groups < MAXGROUPSIZE ∧ Sound closed (groups + 1) l
          else 0 < groups ∧ Sound closed groups l) :=
  iff_of_eq (Sound.eq_def closed groups (key :: l))

theorem enter_cons : enter done (key :: l) =
    if key.headD 0 = closeBrace then enter done l
    else match l with
      | [] => some done
      | op :: l => if op.headD 0 ≠ colon then none else match l with
        | [] => some done
        | value :: l => enter
          (if value.headD 0 = openBrace then done ++ [(key, [])] else done.insert key value) l :=
  enter.eq_def done (key :: l)

theorem sound_close (h : key.headD 0 = closeBrace) :
    Sound closed groups (key :: l) ↔ Short key ∧ Sound closed groups l := by
  rw [sound_cons]
  simp only [if_pos h]

theorem sound_key (h : key.headD 0 ≠ closeBrace) :
    Sound closed groups [key] ↔ Short key ∧ closed := by
  rw [sound_cons]
  simp only [if_neg h]

theorem sound_op (h : key.headD 0 ≠ closeBrace) : Sound closed groups [key, op] ↔
    Short key ∧ Short op ∧ (op.headD 0 = colon → closed) := by
  rw [sound_cons]
  simp only [if_neg h]

theorem sound_value (h : key.headD 0 ≠ closeBrace) :
    Sound closed groups (key :: op :: value :: l) ↔
      Short key ∧ Short op ∧ (op.headD 0 = colon → Short value ∧
        if value.headD 0 = openBrace then groups < MAXGROUPSIZE ∧ Sound closed (groups + 1) l
        else 0 < groups ∧ Sound closed groups l) := by
  rw [sound_cons]
  simp only [if_neg h]

theorem sound_noColon (h : key.headD 0 ≠ closeBrace) (hop : op.headD 0 ≠ colon) :
    Sound closed groups (key :: op :: l) ↔ Short key ∧ Short op := by
  rw [sound_cons]
  simp only [if_neg h]
  exact and_congr_right fun _ => and_iff_left fun hcolon => absurd hcolon hop

theorem Sound.short (h : Sound closed groups (key :: l)) : Short key := by
  rw [sound_cons] at h
  exact h.1

theorem Sound.short_op (h : Sound closed groups (key :: op :: l))
    (hclose : key.headD 0 ≠ closeBrace) : Short op := by
  rw [sound_cons] at h
  simp only [if_neg hclose] at h
  exact h.2.1

theorem enter_close (h : key.headD 0 = closeBrace) : enter done (key :: l) = enter done l := by
  rw [enter_cons]
  simp only [if_pos h]

theorem enter_key (h : key.headD 0 ≠ closeBrace) : enter done [key] = some done := by
  rw [enter_cons]
  simp only [if_neg h]

theorem enter_noColon (h : key.headD 0 ≠ closeBrace) (hop : op.headD 0 ≠ colon) :
    enter done (key :: op :: l) = none := by
  rw [enter_cons]
  simp only [if_neg h, if_pos hop]

theorem enter_op (h : key.headD 0 ≠ closeBrace) (hop : op.headD 0 = colon) :
    enter done [key, op] = some done := by
  rw [enter_cons]
  simp only [if_neg h, hop, ne_eq, not_true_eq_false, if_false]

theorem enter_value (h : key.headD 0 ≠ closeBrace) (hop : op.headD 0 = colon) :
    enter done (key :: op :: value :: l) = enter
      (if value.headD 0 = openBrace then done ++ [(key, [])] else done.insert key value) l := by
  rw [enter_cons]
  simp only [if_neg h, hop, ne_eq, not_true_eq_false, if_false]

theorem Left.congr {i : ℕ} {r : List WString × Ending} (h : Left p i r)
    (hbuffer : q.buffer = p.buffer) (hsize : q.bufferSize = p.bufferSize) : Left q i r := by
  cases h with
  | text h => exact .text ⟨hbuffer ▸ h.chars, hbuffer ▸ h.null, hsize ▸ h.size⟩
  | past => exact hsize ▸ .past

/-- What is done with a value fits just if there is a place for it. -/
theorem Filled.enter (h : Filled p done) (key value : WString) :
    ((if value.headD 0 = openBrace then done.length < MAXGROUPSIZE else 0 < done.length) →
      done.length ≤ MAXGROUPSIZE →
      ∃ q, (if value.headD 0 = openBrace then p.openGroup key else p.store key value) = .ok q ∧
        Filled q
          (if value.headD 0 = openBrace then done ++ [(key, [])] else done.insert key value) ∧
        q.buffer = p.buffer ∧ q.bufferIndex = p.bufferIndex ∧ q.bufferSize = p.bufferSize) ∧
    (¬(if value.headD 0 = openBrace then done.length < MAXGROUPSIZE else 0 < done.length) →
      (if value.headD 0 = openBrace then p.openGroup key else p.store key value) =
        .error .outOfRange) := by
  have hindex := h.index
  by_cases hopen : value.headD 0 = openBrace
  · simp only [if_pos hopen]
    refine ⟨fun hroom _ => h.openGroup hroom key, fun hfull => ?_⟩
    rw [SettingParser.openGroup, if_neg (by omega)]
  · simp only [if_neg hopen]
    refine ⟨fun hpos hle => ?_, fun hnone => ?_⟩
    · obtain ⟨done, g, rfl⟩ :=
        (List.eq_nil_or_concat' done).resolve_left (List.length_pos_iff.1 hpos)
      obtain ⟨name, settings⟩ := g
      rw [List.length_append, List.length_singleton] at hle
      have hinsert : Groups.insert (done ++ [(name, settings)]) key value =
          done ++ [(name, SettingParser.insert settings key value)] := by
        rw [Groups.insert, List.length_append, List.length_singleton, Nat.add_sub_cancel]
        exact modify_length_append done (name, settings) [] _
      rw [hinsert]
      exact h.store (by omega) key value
    · rw [SettingParser.store, if_neg (by omega)]

/-- **The words that are left decide how `Parse` ends**, however the buffer is
accessed. -/
theorem Accesses.parseLoop (ha : Accesses access)
    (hclosed : ∀ p, closed ↔ (e = .unclosed → ∃ c, access p p.bufferSize = .ok c)) :
    ∀ {n : ℕ} {p : SettingParser} {done : Groups} {l : List WString},
      Left p p.bufferIndex (l, e) → Filled p done → done.length ≤ MAXGROUPSIZE → l.length < n →
      Parsed closed p.bufferSize done l e (parseLoopBy access n p) := by
  intro n
  induction n with
  | zero =>
    intro p done l _ _ _ hn
    exact absurd hn (Nat.not_lt_zero _)
  | succ n ih =>
    intro p done l hleft hfilled hle hn
    have hend {p : SettingParser} {i : ℕ} (he : e = .unclosed)
        (hgo : access p p.bufferSize = .error (.readPast i)) : ¬closed := by
      intro h
      obtain ⟨c, hc⟩ := (hclosed p).1 h he
      rw [hgo] at hc
      cases hc
    have hpast (i : ℕ) (c : WChar) : Failure.readPast i ≠ .parser (.expectedColon c) := by simp
    have hlength (c : WChar) :
        Failure.parser .invalidParameter ≠ .parser (.expectedColon c) := by simp
    rw [parseLoopBy]
    have hkey := ha.nextTok hleft
    generalize p.nextTokBy access = r at hkey ⊢
    cases hkey with
    | none hstop hgo => exact .table ((hclosed p).2 hgo) rfl hle (hfilled.moveTo _) hstop rfl
    | past he hgo => exact .failed (hend he hgo) (hpast _)
    | long hlong => exact .failed (fun h => hlong h.short) hlength
    | @word key l i hshort hrest =>
      rw [List.length_cons] at hn
      simp only [bind, Except.bind, pure, Except.pure]
      by_cases hclose : key.headD 0 = closeBrace
      · rw [if_pos hclose]
        refine (ih hrest (hfilled.moveTo i) hle (by omega)).congr ?_ (enter_close hclose).symm
        rw [sound_close hclose, and_iff_right hshort]
      rw [if_neg hclose]
      have hop := ha.nextTok hrest
      generalize (p.moveTo i).nextTokBy access = r at hop ⊢
      cases hop with
      | none hstop hgo =>
        exact .table ((sound_key hclose).2 ⟨hshort, (hclosed _).2 hgo⟩) (enter_key hclose) hle
          ((hfilled.moveTo i).moveTo _) hstop rfl
      | past he hgo =>
        exact .failed (fun h => hend he hgo ((sound_key hclose).1 h).2) (hpast _)
      | @long op l hlong => exact .failed (fun h => hlong (h.short_op hclose)) hlength
      | @word op l j hshort' hrest' =>
        rw [List.length_cons] at hn
        simp only
        by_cases hcolon : op.headD 0 ≠ colon
        · rw [if_pos hcolon]
          exact .thrown ((sound_noColon hclose hcolon).2 ⟨hshort, hshort'⟩)
            (enter_noColon hclose hcolon)
        rw [if_neg hcolon]
        rw [not_ne_iff] at hcolon
        have hvalue := ha.nextTok hrest'
        generalize ((p.moveTo i).moveTo j).nextTokBy access = r at hvalue ⊢
        have hfilled' := (hfilled.moveTo i).moveTo j
        cases hvalue with
        | none hstop hgo =>
          exact .table ((sound_op hclose).2 ⟨hshort, hshort', fun _ => (hclosed _).2 hgo⟩)
            (enter_op hclose hcolon) hle (hfilled'.moveTo _) hstop rfl
        | past he hgo =>
          exact .failed (fun h => hend he hgo (((sound_op hclose).1 h).2.2 hcolon)) (hpast _)
        | @long value l hlong =>
          exact .failed (fun h => hlong (((sound_value hclose).1 h).2.2 hcolon).1) hlength
        | @word value l k hshort'' hrest'' =>
          rw [List.length_cons] at hn
          simp only
          obtain ⟨hfits, hfull⟩ := (hfilled'.moveTo k).enter key value
          by_cases hroom : if value.headD 0 = openBrace then done.length < MAXGROUPSIZE
            else 0 < done.length
          · obtain ⟨q, hq, hfilled'', hbuffer, hindex, hsize⟩ := hfits hroom hle
            rw [hq]
            have hleft' : Left q q.bufferIndex (l, e) := by
              rw [hindex]
              exact hrest''.congr hbuffer hsize
            have hlength' : (if value.headD 0 = openBrace then done ++ [(key, [])]
                else done.insert key value).length =
                  if value.headD 0 = openBrace then done.length + 1 else done.length := by
              split <;> simp [Groups.insert]
            have hsize' : q.bufferSize = p.bufferSize := hsize
            rw [← hsize']
            refine (ih hleft' hfilled'' ?_ (by omega)).congr ?_ (enter_value hclose hcolon).symm
            · rw [hlength']
              split
              · next hopen =>
                rw [if_pos hopen] at hroom
                exact hroom
              · exact hle
            · rw [sound_value hclose, and_iff_right hshort, and_iff_right hshort',
                forall_prop_of_true hcolon, and_iff_right hshort'', hlength']
              by_cases hopen : value.headD 0 = openBrace
              · rw [if_pos hopen] at hroom
                rw [if_pos hopen, if_pos hopen, and_iff_right hroom]
              · rw [if_neg hopen] at hroom
                rw [if_neg hopen, if_neg hopen, and_iff_right hroom]
          · rw [hfull hroom]
            refine .failed (fun h => hroom ?_) (by simp)
            have hvalue := (((sound_value hclose).1 h).2.2 hcolon).2
            by_cases hopen : value.headD 0 = openBrace
            · rw [if_pos hopen] at hvalue ⊢
              exact hvalue.1
            · rw [if_neg hopen] at hvalue ⊢
              exact hvalue.1

/-! ## Staying in bounds -/

/-- `Parse` finishes or throws, and every access on the way is in bounds: an
access that is not would be the end of it. -/
def StaysInBounds (text : WString) (behind : ℕ → WChar) : Prop :=
  (∃ q, (load text behind).parseBy inside = .ok q) ∨
    ∃ c, (load text behind).parseBy inside = .error (.parser (.expectedColon c))

theorem inside_bufferSize (p : SettingParser) :
    e ≠ .unclosed ↔ (e = .unclosed → ∃ c, inside p p.bufferSize = .ok c) := by
  refine forall_congr' fun _ => ⟨False.elim, fun h => ?_⟩
  obtain ⟨c, hc⟩ := h
  rw [inside, if_neg (lt_irrefl _)] at hc
  cases hc

/-- What `Parse` makes of a text. -/
theorem parsed_load {access : SettingParser → See} (ha : Accesses access)
    (hclosed : ∀ p, closed ↔
      ((words .gap text).2 = .unclosed → ∃ c, access p p.bufferSize = .ok c)) :
    Parsed closed (text.length + 1) [] (words .gap text).1 (words .gap text).2
      ((load text behind).parseBy access) := by
  have hlength := length_words .gap text
  refine ha.parseLoop hclosed (.text (shows_load text behind)) ⟨rfl, rfl, rfl⟩ (Nat.zero_le _) ?_
  change _ < text.length + 1 + 1
  omega

/-- **`Parse` stays in bounds if and only if** the words of the text fit where
they are put, and it does not come to the end of a text that ends in a comment
or in quotes. -/
theorem staysInBounds_iff (text : WString) (behind : ℕ → WChar) : StaysInBounds text behind ↔
    Sound ((words .gap text).2 ≠ .unclosed) 0 (words .gap text).1 := by
  have hparsed : Parsed ((words .gap text).2 ≠ .unclosed) (text.length + 1) []
      (words .gap text).1 (words .gap text).2 ((load text behind).parseBy inside) :=
    parsed_load accesses_inside fun p => inside_bufferSize p
  rw [StaysInBounds]
  generalize (load text behind).parseBy inside = r at hparsed ⊢
  cases hparsed with
  | table hsound => exact iff_of_true (.inl ⟨_, rfl⟩) hsound
  | thrown hsound => exact iff_of_true (.inr ⟨_, rfl⟩) hsound
  | failed hsound hf =>
    refine iff_of_false (fun h => ?_) hsound
    rcases h with ⟨q, hq⟩ | ⟨c, hc⟩
    · cases hq
    · exact hf c (Except.error.inj hc)

/-- A comment at the very end, and a setting outside of any group. -/
theorem parse_leaves_bounds : (¬StaysInBounds [slash, slash] fun _ => 0) ∧
    ¬StaysInBounds [0x6B, colon, 0x76] fun _ => 0 := by
  have hcomment : (load [slash, slash] fun _ => 0).parseBy inside = .error (.readPast 3) := rfl
  have hgroup : (load [0x6B, colon, 0x76] fun _ => 0).parseBy inside =
      .error (.parser .outOfRange) := rfl
  constructor
  · rintro (⟨q, hq⟩ | ⟨c, hc⟩)
    · exact absurd (hcomment.symm.trans hq) (by simp)
    · exact absurd (hcomment.symm.trans hc) (by simp)
  · rintro (⟨q, hq⟩ | ⟨c, hc⟩)
    · exact absurd (hgroup.symm.trans hq) (by simp)
    · exact absurd (hgroup.symm.trans hc) (by simp)

end SettingParser

end NetLib
