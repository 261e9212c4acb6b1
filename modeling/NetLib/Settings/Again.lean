import NetLib.Settings.InBounds
import NetLib.Settings.Written
/-!
# `Init` twice

`LoadSetting` replaces the buffer, and nothing else: the second `Init` starts
where the first one has stopped, with the groups of the first one. So it reads
the rest of the second text on top of them.
-/

namespace NetLib

namespace SettingParser

open WChar

variable {p q : SettingParser} {done table : Groups} {e : Ending} {text a b : WString}
variable {behind behindA behindB : ℕ → WChar}

/-- `LoadSetting` of a parser that was used before. -/
def reload (p : SettingParser) (text : WString) (behind : ℕ → WChar) : SettingParser :=
  { p with buffer := (load text behind).buffer, bufferSize := text.length + 1 }

/-- The second `Init` reads inside of its buffer, and the parser then answers as
`q` does. -/
def Replaces (p : SettingParser) (text : WString) (behind : ℕ → WChar) (q : SettingParser) : Prop :=
  ∃ r, (p.reload text behind).parseBy inside = .ok r ∧
    ∀ name, r.getValueImpl name = q.getValueImpl name

/-! ## What a text says -/

/-- The groups of a text. -/
def groupsOf (text : WString) : Groups := (enter [] (words .gap text).1).getD []

/-- Where a reader of the text has come to in the end; behind a text that ends
in a comment or in quotes, this is behind the null that was put there. -/
def stopOf (text : WString) : ℕ :=
  match (words .gap text).2 with
  | .null rest => text.length - rest.length
  | .unclosed => text.length + 1

/-- What a text says that is read on top of other groups: first, under no name,
the settings in front of its first group, then its groups. Nothing, if an
operator is no colon. -/
def spoken (text : WString) : Option Groups := enter [([], [])] (words .gap text).1

/-- The settings in front of the first group of a text. -/
def leading (text : WString) : List (WString × WString) := (((spoken text).getD []).headD ([], [])).2

/-- The groups behind them. -/
def opened (text : WString) : Groups := ((spoken text).getD []).tail

/-- What a text adds to the groups it is read on top of. The settings in front
of its first group go to the last of them, where they count if the key is new
there and no group before it has its name; a group of the text counts if none
of them has its name. -/
def Adds (done : Groups) (text group key value : WString) : Prop :=
  (∃ before settings, done = before ++ [(group, settings)] ∧ (∀ g ∈ before, g.1 ≠ group) ∧
      settings.lookup key = none ∧ (leading text).lookup key = some value) ∨
    (∀ g ∈ done, g.1 ≠ group) ∧ (opened text).answer group key = some value

/-- How many characters of a text that no null ends before a reader has gone
past in the end: behind a text that ends in a comment or in quotes, the null
that was put there is one of them. -/
def pastOf (text : WString) : ℕ :=
  if (words .gap text).2 = .unclosed then text.length + 1 else text.length

/-- The rest of `b`, behind as many characters as `a` has. -/
def restOf (a b : WString) : WString := b.drop (pastOf a)

/-- When a second text `b` replaces a first text `a`: it is no shorter, and what
`a` says and the rest of `b` adds to it is what `b` says. A dot in the name of a
group makes it a group nobody can ask for. -/
structure Continues (a b : WString) : Prop where
  length : pastOf a ≤ b.length
  /-- The words of the rest fit on top of the groups of `a`, -/
  fits : Sound ((words .gap (restOf a b)).2 ≠ .unclosed) (groupsOf a).length
    (words .gap (restOf a b)).1
  /-- and none of its operators is no colon. -/
  colons : (spoken (restOf a b)).isSome
  /-- What `a` says, `b` says, -/
  kept : ∀ group key value, dot ∉ group → (groupsOf a).answer group key = some value →
    (groupsOf b).answer group key = some value
  /-- what the rest of `b` adds to it, `b` says, -/
  added : ∀ group key value, dot ∉ group → Adds (groupsOf a) (restOf a b) group key value →
    (groupsOf b).answer group key = some value
  /-- and `b` says nothing else. -/
  complete : ∀ group key value, dot ∉ group → (groupsOf b).answer group key = some value →
    (groupsOf a).answer group key = some value ∨ Adds (groupsOf a) (restOf a b) group key value

/-! ## On top of other groups -/

/-- Settings put into the group that was opened last. -/
def Groups.extend (done : Groups) (settings : List (WString × WString)) : Groups :=
  settings.foldl (fun done s => done.insert s.1 s.2) done

/-- What was said on top of nothing, put on top of groups. -/
def Groups.onto (done : Groups) : Groups → Groups
  | [] => done
  | (_, settings) :: opened => done.extend settings ++ opened

theorem Groups.insert_concat (done : Groups) (g : WString × List (WString × WString))
    (key value : WString) : Groups.insert (done ++ [g]) key value =
      done ++ [(g.1, SettingParser.insert g.2 key value)] := by
  rw [Groups.insert, List.length_append, List.length_singleton, Nat.add_sub_cancel]
  exact modify_length_append done g [] _

theorem Groups.insert_append {opened : Groups} (hne : opened ≠ []) (done : Groups)
    (key value : WString) : Groups.insert (done ++ opened) key value =
      done ++ opened.insert key value := by
  obtain ⟨opened, g, rfl⟩ := (List.eq_nil_or_concat' opened).resolve_left hne
  rw [← List.append_assoc, insert_concat, insert_concat, List.append_assoc]

theorem lookup_cons_eq (settings : List (WString × WString)) (key value k : WString) :
    ((key, value) :: settings).lookup k =
      (if k = key then some value else none).or (settings.lookup k) := by
  by_cases hk : k = key
  · rw [hk, List.lookup_cons_self, if_pos rfl, Option.some_or]
  · rw [List.lookup_cons, beq_eq_false_iff_ne.2 hk, if_neg hk, Option.none_or]

/-- A key that is there keeps its value, and a new one gets the one put in. -/
theorem lookup_insert (settings : List (WString × WString)) (key value k : WString) :
    (insert settings key value).lookup k =
      (settings.lookup k).or (if k = key then some value else none) := by
  rw [insert]
  split
  · next hsome =>
    by_cases hk : k = key
    · obtain ⟨v, hv⟩ := Option.isSome_iff_exists.1 hsome
      rw [hk, hv]
      rfl
    · rw [if_neg hk, Option.or_none]
  · rw [List.lookup_append, lookup_cons_eq, List.lookup_nil, Option.or_none]

theorem lookup_foldl_insert (more : List (WString × WString)) :
    ∀ (settings : List (WString × WString)) (k : WString),
      (more.foldl (fun settings s => insert settings s.1 s.2) settings).lookup k =
        (settings.lookup k).or (more.lookup k) := by
  induction more with
  | nil => exact fun settings k => (Option.or_none ..).symm
  | cons s more ih =>
    intro settings k
    obtain ⟨key, value⟩ := s
    rw [List.foldl_cons, ih, lookup_insert, Option.or_assoc, ← lookup_cons_eq]

theorem Groups.extend_concat (done : Groups) (more : List (WString × WString)) :
    ∀ name settings, Groups.extend (done ++ [(name, settings)]) more =
      done ++ [(name, more.foldl (fun settings s => SettingParser.insert settings s.1 s.2)
        settings)] := by
  induction more with
  | nil => exact fun _ _ => rfl
  | cons s more ih =>
    intro name settings
    have hstep : Groups.extend (done ++ [(name, settings)]) (s :: more) =
        Groups.extend (done ++ [(name, SettingParser.insert settings s.1 s.2)]) more := by
      rw [← insert_concat done (name, settings)]
      rfl
    rw [hstep, ih]
    rfl

theorem Groups.extend_nil (more : List (WString × WString)) : Groups.extend [] more = [] := by
  induction more with
  | nil => rfl
  | cons s more ih => exact ih

/-- Putting in a setting and going on top of groups may change places. -/
theorem Groups.extend_insert (done : Groups) (settings : List (WString × WString))
    (key value : WString) : done.extend (SettingParser.insert settings key value) =
      (done.extend settings).insert key value := by
  by_cases hsome : (settings.lookup key).isSome
  · rw [SettingParser.insert, if_pos hsome]
    rcases List.eq_nil_or_concat' done with rfl | ⟨done, ⟨name, old⟩, rfl⟩
    · rw [extend_nil]
      rfl
    · -- the key is there, so that nothing is put in
      rw [extend_concat, insert_concat, SettingParser.insert, if_pos]
      rw [lookup_foldl_insert]
      obtain ⟨v, hv⟩ := Option.isSome_iff_exists.1 hsome
      cases old.lookup key <;> simp [hv]
  · rw [SettingParser.insert, if_neg hsome]
    simp only [extend, List.foldl_append, List.foldl_cons, List.foldl_nil]

theorem Groups.onto_open {u : Groups} (hne : u ≠ []) (done : Groups) (key : WString) :
    done.onto (u ++ [(key, [])]) = done.onto u ++ [(key, [])] := by
  obtain ⟨g, u, rfl⟩ := List.exists_cons_of_ne_nil hne
  exact (List.append_assoc ..).symm

theorem Groups.onto_insert {u : Groups} (hne : u ≠ []) (done : Groups) (key value : WString) :
    done.onto (u.insert key value) = (done.onto u).insert key value := by
  obtain ⟨g, u, rfl⟩ := List.exists_cons_of_ne_nil hne
  rcases List.eq_nil_or_concat' u with rfl | ⟨u, h, rfl⟩
  · have hinsert := insert_concat [] g key value
    rw [List.nil_append, List.nil_append] at hinsert
    rw [hinsert]
    simp only [onto, List.append_nil]
    exact extend_insert done g.2 key value
  · have hinsert := insert_concat (g :: u) h key value
    rw [List.cons_append] at hinsert
    rw [hinsert]
    simp only [onto, List.cons_append]
    rw [insert_append (by simp), insert_concat]

/-- **Reading on top of groups is reading alone**, and going on top of them. -/
theorem enter_onto {u : Groups} (hne : u ≠ []) (done : Groups) (l : List WString) :
    enter (done.onto u) l = (enter u l).map done.onto := by
  fun_induction enter u l with
  | case1 u => rfl
  | case2 u key l hclose ih => rw [enter_close hclose, ih hne]
  | case3 u key hclose => exact enter_key hclose
  | case4 u key hclose op l hcolon => exact enter_noColon hclose hcolon
  | case5 u key hclose op hcolon => exact enter_op hclose (not_not.1 hcolon)
  | case6 u key hclose op hcolon value l ih =>
    rw [enter_value hclose (not_not.1 hcolon)]
    by_cases hopen : value.headD 0 = openBrace
    · simp only [if_pos hopen] at ih ⊢
      rw [← Groups.onto_open hne]
      exact ih (by simp)
    · simp only [if_neg hopen] at ih ⊢
      rw [← Groups.onto_insert hne]
      refine ih fun hnil => hne ?_
      rw [Groups.insert, ← List.length_eq_zero_iff, List.length_modify] at hnil
      exact List.length_eq_zero_iff.1 hnil

/-! ## Answers -/

theorem answer_append_replicate (done : Groups) (n : ℕ) (group key : WString) :
    Groups.answer (done ++ List.replicate n ([], [])) group key = done.answer group key := by
  rw [Groups.answer, Groups.answer, List.find?_append]
  cases done.find? fun g => g.1 == group with
  | some g => rfl
  | none =>
    cases hfind : (List.replicate n (([], []) : WString × List (WString × WString))).find?
        fun g => g.1 == group with
    | none => rfl
    | some g =>
      rw [(List.mem_replicate.1 (List.mem_of_find?_eq_some hfind)).2]
      rfl

/-- The parser answers what its groups do. -/
theorem Filled.getValueImpl (h : Filled p done) (name : WString) : p.getValueImpl name =
    if dot ∈ name then .ok (done.answer (name.takeWhile (· != dot))
      ((name.dropWhile (· != dot)).drop 1)) else .error .outOfRange := by
  rw [SettingParser.getValueImpl]
  by_cases hdot : dot ∈ name
  · rw [if_pos hdot, if_pos hdot, ← answer_append_replicate done (MAXGROUPSIZE - done.length),
      ← h.zip, Groups.answer]
    cases (p.groupsName.zip p.settingsContainer).find? fun g =>
      g.1 == name.takeWhile (· != dot) <;> rfl
  · rw [if_neg hdot, if_neg hdot]

/-- Groups in front hide the groups of their names behind them, -/
theorem answer_append_left {group : WString} (h : ∃ g ∈ done, g.1 = group) (opened : Groups)
    (key : WString) : Groups.answer (done ++ opened) group key = done.answer group key := by
  obtain ⟨g, hg, hname⟩ := h
  obtain ⟨g', hg'⟩ := Option.isSome_iff_exists.1
    (List.find?_isSome.2 ⟨g, hg, beq_iff_eq.2 hname⟩ : (done.find? fun g => g.1 == group).isSome)
  rw [Groups.answer, Groups.answer, List.find?_append, hg']
  rfl

/-- and no others. -/
theorem answer_append_right {group : WString} (h : ∀ g ∈ done, g.1 ≠ group) (opened : Groups)
    (key : WString) : Groups.answer (done ++ opened) group key = opened.answer group key := by
  have hnone : done.find? (fun g => g.1 == group) = none :=
    List.find?_eq_none.2 fun g hg heq => h g hg (beq_iff_eq.1 heq)
  rw [Groups.answer, Groups.answer, List.find?_append, hnone]
  rfl

theorem answer_cons (name group key : WString) (settings : List (WString × WString))
    (opened : Groups) : Groups.answer ((name, settings) :: opened) group key =
      if name = group then settings.lookup key else opened.answer group key := by
  rw [Groups.answer, List.find?_cons]
  by_cases hname : name = group
  · rw [if_pos hname, beq_iff_eq.2 hname]
    rfl
  · rw [if_neg hname, beq_eq_false_iff_ne.2 hname]
    rfl

/-- What a text adds, the last group being the one that is open. -/
theorem adds_concat {name group key value : WString} {settings : List (WString × WString)} :
    Adds (done ++ [(name, settings)]) text group key value ↔
      (∀ g ∈ done, g.1 ≠ group) ∧ if name = group then
        settings.lookup key = none ∧ (leading text).lookup key = some value
      else (opened text).answer group key = some value := by
  constructor
  · rintro (⟨before, settings', heq, hbefore, hkey⟩ | ⟨hnames, hkey⟩)
    · obtain ⟨rfl, hlast⟩ := List.append_inj' heq rfl
      obtain ⟨rfl, rfl⟩ := Prod.mk.inj (List.singleton_inj.1 hlast)
      exact ⟨hbefore, by rwa [if_pos rfl]⟩
    · have hname : name ≠ group := hnames _ (List.mem_append_right _ List.mem_cons_self)
      exact ⟨fun g hg => hnames g (List.mem_append_left _ hg), by rwa [if_neg hname]⟩
  · rintro ⟨hbefore, hkey⟩
    by_cases hname : name = group
    · rw [if_pos hname] at hkey
      exact .inl ⟨done, settings, by rw [hname], hbefore, hkey⟩
    · rw [if_neg hname] at hkey
      refine .inr ⟨fun g hg => ?_, hkey⟩
      rcases List.mem_append.1 hg with hg | hg
      · exact hbefore g hg
      · rw [List.mem_singleton.1 hg]
        exact hname

/-- **On top of groups a text is what it adds to them.** -/
theorem answer_onto {u : Groups} (h : spoken text = some u) (done : Groups)
    (group key value : WString) : (done.onto u).answer group key = some value ↔
      done.answer group key = some value ∨ Adds done text group key value := by
  have hleading : leading text = (u.headD ([], [])).2 := by rw [leading, h]; rfl
  have hopened : opened text = u.tail := by rw [opened, h]; rfl
  cases u with
  | nil =>
    rw [Adds, hleading, hopened]
    refine (or_iff_left ?_).symm
    rintro (⟨_, _, _, _, _, hkey⟩ | ⟨_, hkey⟩) <;> cases hkey
  | cons g opened =>
    obtain ⟨_, more⟩ := g
    rw [List.headD_cons] at hleading
    rw [List.tail_cons] at hopened
    rw [Groups.onto]
    rcases List.eq_nil_or_concat' done with rfl | ⟨done, ⟨name, settings⟩, rfl⟩
    · -- there is no group for the settings in front
      rw [Groups.extend_nil, List.nil_append, Adds, hopened]
      constructor
      · exact fun hkey => .inr (.inr ⟨fun g hg => absurd hg List.not_mem_nil, hkey⟩)
      · rintro (hkey | ⟨before, _, hnil, -⟩ | ⟨-, hkey⟩)
        · cases hkey
        · exact absurd hnil.symm (List.append_ne_nil_of_right_ne_nil _ (List.cons_ne_nil _ _))
        · exact hkey
    · rw [Groups.extend_concat, List.append_assoc, List.singleton_append, adds_concat, hleading,
        hopened]
      by_cases hbefore : ∃ g ∈ done, g.1 = group
      · rw [answer_append_left hbefore, answer_append_left hbefore]
        refine (or_iff_left fun hnew => ?_).symm
        obtain ⟨g, hg, hname⟩ := hbefore
        exact hnew.1 g hg hname
      · have hbefore' : ∀ g ∈ done, g.1 ≠ group := fun g hg hname => hbefore ⟨g, hg, hname⟩
        rw [answer_append_right hbefore', answer_append_right hbefore', answer_cons, answer_cons,
          and_iff_right hbefore']
        by_cases hname : name = group
        · rw [if_pos hname, if_pos hname, if_pos hname, lookup_foldl_insert]
          cases settings.lookup key <;> simp
        · rw [if_neg hname, if_neg hname, if_neg hname]
          exact (or_iff_right fun hnone => by cases hnone).symm

theorem getValueImpl_eq_iff (h : Filled p done) (h' : Filled q table) :
    (∀ name, p.getValueImpl name = q.getValueImpl name) ↔
      ∀ group key, dot ∉ group → done.answer group key = table.answer group key := by
  constructor
  · intro hall group key hdot
    have hname := hall (group ++ dot :: key)
    have hgroup : ∀ c ∈ group, (c != dot) = true := by
      intro c hc
      simp only [bne_iff_ne, ne_eq]
      rintro rfl
      exact hdot hc
    have hstop : (dot != dot) = false := by decide
    have hmem : dot ∈ group ++ dot :: key := List.mem_append_right _ List.mem_cons_self
    rw [h.getValueImpl, h'.getValueImpl, if_pos hmem, if_pos hmem,
      List.takeWhile_append_of_pos hgroup, List.dropWhile_append_of_pos hgroup,
      List.takeWhile_cons, List.dropWhile_cons, hstop] at hname
    simpa using hname
  · intro hall name
    rw [h.getValueImpl, h'.getValueImpl]
    by_cases hdot : dot ∈ name
    · rw [if_pos hdot, if_pos hdot, hall]
      intro hmem
      exact absurd (List.mem_takeWhile_imp hmem) (by decide)
    · rw [if_neg hdot, if_neg hdot]

/-! ## The second run -/

/-- After a first run that succeeds. -/
structure Ran (p : SettingParser) (text : WString) : Prop where
  filled : Filled p (groupsOf text)
  length : (groupsOf text).length ≤ MAXGROUPSIZE
  stopped : p.bufferIndex = stopOf text

theorem ran_of_parse (h : (load text behind).parse = .ok p) : Ran p text := by
  have hparsed : Parsed True (text.length + 1) [] (words .gap text).1 (words .gap text).2
      ((load text behind).parseBy anywhere) :=
    parsed_load accesses_anywhere fun p => iff_of_true trivial fun _ => ⟨_, rfl⟩
  rw [parseBy_anywhere, h] at hparsed
  cases hparsed with
  | table hsound henter hle hfilled hstop hsize =>
    have hgroups : groupsOf text = _ := congrArg (·.getD []) henter
    refine ⟨hgroups ▸ hfilled, hgroups ▸ hle, ?_⟩
    rw [stopOf]
    cases hend : (words .gap text).2 with
    | null rest =>
      rw [hend] at hstop
      have := Shows.size hstop
      simp only
      omega
    | unclosed =>
      rw [hend] at hstop
      exact hstop.trans hsize

/-- Behind the buffer, the first access fails. -/
theorem parseBy_inside_of_size_le (h : p.bufferSize ≤ p.bufferIndex) :
    p.parseBy inside = .error (.readPast p.bufferIndex) := by
  have hread : inside p p.bufferIndex = .error (.readPast p.bufferIndex) :=
    if_neg (Nat.not_lt.2 h)
  rw [parseBy, parseLoopBy, nextTokBy, getTokBy, Nat.sub_eq_zero_of_le h, scanBy]
  simp only [bind, Except.bind, hread]

variable (behind) in
theorem parsed_reload (h : Ran p a) (hle : stopOf a ≤ b.length) :
    let r := words .gap (b.drop (stopOf a))
    Parsed (r.2 ≠ .unclosed) (b.length + 1) (groupsOf a) r.1 r.2
      ((p.reload b behind).parseBy inside) := by
  intro r
  have hlength := length_words .gap (b.drop (stopOf a))
  rw [List.length_drop] at hlength
  have hshows : Shows (p.reload b behind) (p.reload b behind).bufferIndex (b.drop (stopOf a)) := by
    have hload := shows_load b behind
    rw [← List.take_append_drop (stopOf a) b] at hload
    have hdrop := hload.drop
    rw [List.length_take, Nat.min_eq_left hle, Nat.zero_add, List.take_append_drop,
      ← h.stopped] at hdrop
    exact ⟨h.stopped ▸ hdrop.chars, h.stopped ▸ hdrop.null, h.stopped ▸ hdrop.size⟩
  refine accesses_inside.parseLoop (fun p => inside_bufferSize p) (.text hshows)
    ⟨h.filled.index, h.filled.names, h.filled.settings⟩ h.length ?_
  change _ < b.length + 1 + 1
  omega

/-- The second `Init` replaces what the first has loaded just if the second text,
read from where the first ends and on top of it, answers as it does alone. -/
theorem replaces_iff_enter {behindC : ℕ → WChar} (ha : (load a behindA).parse = .ok p)
    (hb : (load b behindB).parse = .ok q) : Replaces p b behindC q ↔
      stopOf a ≤ b.length ∧
        Sound ((words .gap (b.drop (stopOf a))).2 ≠ .unclosed) (groupsOf a).length
          (words .gap (b.drop (stopOf a))).1 ∧
        ∃ table, enter (groupsOf a) (words .gap (b.drop (stopOf a))).1 = some table ∧
          ∀ group key, dot ∉ group → table.answer group key = (groupsOf b).answer group key := by
  have hran := ran_of_parse ha
  have hfresh := ran_of_parse hb
  rw [Replaces]
  by_cases hle : stopOf a ≤ b.length
  · have hparsed := parsed_reload behindC hran hle
    rw [and_iff_right hle]
    generalize (p.reload b behindC).parseBy inside = r at hparsed ⊢
    cases hparsed with
    | @table r table hsound henter _ hfilled =>
      rw [and_iff_right hsound]
      constructor
      · rintro ⟨r', hr, hsame⟩
        obtain rfl := Except.ok.inj hr
        exact ⟨table, henter, (getValueImpl_eq_iff hfilled hfresh.filled).1 hsame⟩
      · rintro ⟨table', henter', hsame⟩
        obtain rfl := Option.some.inj (henter.symm.trans henter')
        exact ⟨r, rfl, (getValueImpl_eq_iff hfilled hfresh.filled).2 hsame⟩
    | thrown _ henter =>
      refine iff_of_false (fun h => ?_) fun h => ?_
      · obtain ⟨r, hr, -⟩ := h
        cases hr
      · obtain ⟨-, table, htable, -⟩ := h
        rw [henter] at htable
        cases htable
    | failed hsound =>
      refine iff_of_false (fun h => ?_) fun h => hsound h.1
      obtain ⟨r, hr, -⟩ := h
      cases hr
  · -- the reader starts behind the buffer
    refine iff_of_false (fun h => ?_) fun h => hle h.1
    obtain ⟨r, hr, -⟩ := h
    have hpast : (p.reload b behindC).bufferSize ≤ (p.reload b behindC).bufferIndex := by
      change b.length + 1 ≤ p.bufferIndex
      rw [hran.stopped]
      omega
    rw [parseBy_inside_of_size_le hpast] at hr
    cases hr

/-! ## What the two texts have to say -/

theorem null_of_words (m : Mode) (text rest : WString) (h : (words m text).2 = .null rest) :
    rest.headD 0 = 0 ∧ ∃ before, text = before ++ rest := by
  have hcons {c : WChar} {text : WString}
      (ih : rest.headD 0 = 0 ∧ ∃ before, text = before ++ rest) :
      rest.headD 0 = 0 ∧ ∃ before, c :: text = before ++ rest := by
    obtain ⟨hnull, before, rfl⟩ := ih
    exact ⟨hnull, c :: before, rfl⟩
  fun_induction words m text with
  | case1 | case16 | case21 =>
    obtain rfl := Ending.null.inj h
    exact ⟨rfl, [], rfl⟩
  | case3 text =>
    obtain rfl := Ending.null.inj h
    exact ⟨rfl, [], rfl⟩
  | case10 | case13 | case18 => cases h
  | _ =>
    rename_i ih
    exact hcons (ih h)

theorem words_of_null {rest : WString} (h : rest.headD 0 = 0) :
    words .gap rest = ([], .null rest) := by
  cases rest with
  | nil => rfl
  | cons c rest =>
    obtain rfl : c = 0 := h
    rfl

/-- Behind the end of a text there are no words. -/
theorem words_drop_stopOf (hend : (words .gap text).2 ≠ .unclosed) :
    stopOf text ≤ text.length ∧ ∃ rest, words .gap (text.drop (stopOf text)) = ([], .null rest) := by
  cases hnull : (words .gap text).2 with
  | unclosed => exact absurd hnull hend
  | null rest =>
    obtain ⟨hzero, before, hbefore⟩ := null_of_words .gap text rest hnull
    have hlength : text.length = before.length + rest.length := by
      rw [hbefore, List.length_append]
    have hstop : stopOf text = before.length := by
      simp only [stopOf, hnull]
      omega
    have hdrop : text.drop (stopOf text) = rest := by
      rw [hstop, hbefore, List.drop_left]
    exact ⟨by omega, rest, by rw [hdrop, words_of_null hzero]⟩

/-- A text that no null ends before is read to its end. -/
theorem stopOf_eq (h : ReadsThrough text) : stopOf text = pastOf text := by
  rw [stopOf, pastOf]
  rcases h with hnull | hunclosed
  · rw [hnull, if_neg nofun]
    rfl
  · rw [hunclosed, if_pos rfl]

theorem enter_eq_spoken (done : Groups) (text : WString) :
    enter done (words .gap text).1 = (spoken text).map done.onto := by
  have honto : done.onto [([], [])] = done := List.append_nil _
  rw [spoken, ← enter_onto (List.cons_ne_nil _ _), honto]

theorem continues_iff : Continues a b ↔ pastOf a ≤ b.length ∧
    Sound ((words .gap (restOf a b)).2 ≠ .unclosed) (groupsOf a).length
      (words .gap (restOf a b)).1 ∧
    ∃ table, enter (groupsOf a) (words .gap (restOf a b)).1 = some table ∧
      ∀ group key, dot ∉ group → table.answer group key = (groupsOf b).answer group key := by
  rw [enter_eq_spoken]
  constructor
  · intro h
    obtain ⟨u, hu⟩ := Option.isSome_iff_exists.1 h.colons
    refine ⟨h.length, h.fits, _, by rw [hu]; rfl, fun group key hdot => ?_⟩
    ext value
    rw [answer_onto hu]
    constructor
    · rintro (hold | hnew)
      · exact h.kept group key value hdot hold
      · exact h.added group key value hdot hnew
    · exact h.complete group key value hdot
  · rintro ⟨hlength, hfits, table, htable, hsame⟩
    obtain ⟨u, hu, rfl⟩ := Option.map_eq_some_iff.1 htable
    have hiff (group key value : WString) (hdot : dot ∉ group) :
        (groupsOf b).answer group key = some value ↔
          (groupsOf a).answer group key = some value ∨
            Adds (groupsOf a) (restOf a b) group key value := by
      rw [← answer_onto hu, hsame group key hdot]
    exact {
      length := hlength
      fits := hfits
      colons := Option.isSome_iff_exists.2 ⟨u, hu⟩
      kept := fun group key value hdot h => (hiff group key value hdot).2 (.inl h)
      added := fun group key value hdot h => (hiff group key value hdot).2 (.inr h)
      complete := fun group key value hdot => (hiff group key value hdot).1 }

/-- A well-formed file is read to its end. -/
theorem readsThrough_of_layout {table : List Group} (hok : TableOk table)
    (h : Layout IsPlainBlock (tokens table) text) : ReadsThrough text :=
  (words_of_layout (fun _ ht => hok.token ht) h).2

/-- **The second `Init` replaces what the first has loaded if and only if** the
second text is no shorter and says what the first says and, besides, just what
its rest adds to that. -/
theorem replaces_iff {behindC : ℕ → WChar} (hnull : ReadsThrough a)
    (ha : (load a behindA).parse = .ok p) (hb : (load b behindB).parse = .ok q) :
    Replaces p b behindC q ↔ Continues a b := by
  rw [replaces_iff_enter ha hb, continues_iff, restOf, stopOf_eq hnull]

/-- A file, and the file with a group appended. -/
theorem replaces_iff_appended : ∃ p q,
    (load [0x67, colon, openBrace, 0x6B, colon, 0x76, closeBrace] fun _ => 0).parse = .ok p ∧
    (load [0x67, colon, openBrace, 0x6B, colon, 0x76, closeBrace,
      0x68, colon, openBrace, 0x6B, colon, 0x77, closeBrace] fun _ => 0).parse = .ok q ∧
    Replaces p [0x67, colon, openBrace, 0x6B, colon, 0x76, closeBrace,
      0x68, colon, openBrace, 0x6B, colon, 0x77, closeBrace] (fun _ => 0) q ∧
    Continues [0x67, colon, openBrace, 0x6B, colon, 0x76, closeBrace]
      [0x67, colon, openBrace, 0x6B, colon, 0x76, closeBrace,
        0x68, colon, openBrace, 0x6B, colon, 0x77, closeBrace] := by
  obtain ⟨p, q, r, hp, hq, hr, hnames, hsettings⟩ : ∃ p q r,
      (load [0x67, colon, openBrace, 0x6B, colon, 0x76, closeBrace] fun _ => 0).parse = .ok p ∧
      (load [0x67, colon, openBrace, 0x6B, colon, 0x76, closeBrace,
        0x68, colon, openBrace, 0x6B, colon, 0x77, closeBrace] fun _ => 0).parse = .ok q ∧
      (p.reload [0x67, colon, openBrace, 0x6B, colon, 0x76, closeBrace,
        0x68, colon, openBrace, 0x6B, colon, 0x77, closeBrace] fun _ => 0).parseBy inside = .ok r ∧
      r.groupsName = q.groupsName ∧ r.settingsContainer = q.settingsContainer := by
    refine ⟨_, _, _, rfl, rfl, rfl, ?_, ?_⟩ <;> decide +kernel
  have hreplaces : Replaces p _ (fun _ => 0) q :=
    ⟨r, hr, fun name => by rw [getValueImpl, getValueImpl, hnames, hsettings]⟩
  exact ⟨p, q, hp, hq, hreplaces, (replaces_iff (by decide) hp hq).1 hreplaces⟩

/-- Two files of one length, with a group `g` and with a group `h`: the second
`Init` reads nothing, and the group `h` is not there. -/
theorem init_keeps : ∃ p q, (load [0x67, colon, openBrace, 0x6B, colon, 0x76, closeBrace]
      fun _ => 0).parse = .ok p ∧
    (load [0x68, colon, openBrace, 0x6B, colon, 0x76, closeBrace] fun _ => 0).parse = .ok q ∧
    ¬Replaces p [0x68, colon, openBrace, 0x6B, colon, 0x76, closeBrace] (fun _ => 0) q := by
  refine ⟨_, _, rfl, rfl, fun h => ?_⟩
  obtain ⟨r, hr, hsame⟩ := h
  obtain rfl := Except.ok.inj hr
  have hname := hsame [0x68, dot, 0x6B]
  exact absurd hname (by decide +kernel)

/-! ## Files of one length -/

/-- **Of two files of one length**, the second replaces the first just if they
say the same: nothing of the second is read. -/
theorem continues_of_length_eq (hlength : a.length = b.length)
    (hend : (words .gap a).2 ≠ .unclosed) : Continues a b ↔
      ∀ group key, dot ∉ group →
        (groupsOf a).answer group key = (groupsOf b).answer group key := by
  have hpast : pastOf a = b.length := by rw [pastOf, if_neg hend, hlength]
  have hwords : words .gap (restOf a b) = ([], .null []) := by
    rw [restOf, hpast, List.drop_length]
    rfl
  rw [continues_iff, hwords, and_iff_right hpast.le, and_iff_right (by simp [Sound])]
  constructor
  · rintro ⟨table, htable, hsame⟩
    obtain rfl := Option.some.inj htable
    exact hsame
  · exact fun hsame => ⟨_, rfl, hsame⟩

/-- **`Init` twice on the same file** is `Init` once, unless the file ends in a
comment or in quotes. -/
theorem continues_self (text : WString) :
    Continues text text ↔ (words .gap text).2 ≠ .unclosed := by
  by_cases hend : (words .gap text).2 = .unclosed
  · refine iff_of_false (fun h => ?_) fun hne => hne hend
    have hlength := h.length
    rw [pastOf, if_pos hend] at hlength
    omega
  · rw [continues_of_length_eq rfl hend]
    exact iff_of_true (fun _ _ _ => rfl) hend

end SettingParser

end NetLib
