import Mathlib.Data.List.TakeWhile
import NetLib.Settings.Layout
/-!
# `GetTok` on a settings text

At whitespace and comments `GetTok` moves on, at a token it takes the token.
The scan for the end of a block comment starts at the asterisk that opens it, so
`/*/` is a comment for it.
-/

namespace NetLib

namespace SettingParser

open WChar

variable {p : SettingParser} {i n : ℕ} {a b rest comment w : WString} {c : WChar}

/-- What is left of the text at an index. -/
structure Shows (p : SettingParser) (i : ℕ) (rest : WString) : Prop where
  chars : ∀ j c, rest[j]? = some c → p.buffer (i + j) = c
  null : p.buffer (i + rest.length) = 0
  size : p.bufferSize = i + rest.length + 1

theorem shows_load (text : WString) (behind : ℕ → WChar) : Shows (load text behind) 0 text where
  chars j c h := by
    obtain ⟨hlt, -⟩ := List.getElem?_eq_some_iff.1 h
    simp only [load, Nat.zero_add, h, Option.getD_some]
    rw [if_neg (by omega)]
  null := by simp [load]
  size := by simp [load]

theorem Shows.drop (h : Shows p i (a ++ b)) : Shows p (i + a.length) b where
  chars j c hj := by
    have := h.chars (a.length + j) c (by
      rw [List.getElem?_append_right (by omega), Nat.add_sub_cancel_left, hj])
    rwa [← Nat.add_assoc] at this
  null := by
    have := h.null
    rwa [List.length_append, ← Nat.add_assoc] at this
  size := by
    have := h.size
    rw [List.length_append] at this
    omega

theorem Shows.tail (h : Shows p i (c :: rest)) : Shows p (i + 1) rest := Shows.drop (a := [c]) h

theorem Shows.head (h : Shows p i rest) : p.buffer i = rest.headD 0 := by
  cases rest with
  | nil => exact h.null
  | cons c rest => exact h.chars 0 c rfl

theorem Shows.lt (h : Shows p i rest) : i + rest.length < p.bufferSize := by
  have := h.size
  omega

/-- A scan stops at the first character that it is looking for. -/
theorem Shows.scan (h : Shows p i (a ++ b)) {f : WChar → Bool} (ha : ∀ c ∈ a, f c = false)
    (hb : f (b.headD 0) = true) :
    Scan.scan p.bufferSize (fun j => f (p.buffer j)) i = i + a.length := by
  refine Scan.scan_eq (by omega) (by have := h.drop.lt; omega) (fun j hj hj' => ?_) fun _ => ?_
  · obtain ⟨d, rfl⟩ := Nat.exists_eq_add_of_le hj
    have hd : d < a.length := by omega
    have hget : (a ++ b)[d]? = some a[d] := by
      rw [List.getElem?_append_left hd, List.getElem?_eq_getElem hd]
    rw [h.chars d _ hget]
    exact ha _ (List.getElem_mem hd)
  · rw [h.drop.head]
    exact hb

/-! ## Words -/

theorem Shows.wcsncpy (h : Shows p i (w ++ rest)) (hnull : (0 : WChar) ∉ w)
    (hlength : w.length < MAX_WORD_SIZE) : p.wcsncpy i w.length = .ok w := by
  have hmap : (List.range w.length).map (fun j => p.buffer (i + j)) = w := by
    refine List.ext_getElem (by simp) fun j hj hj' => ?_
    rw [List.getElem_map, List.getElem_range]
    exact h.chars j _ (by rw [List.getElem?_append_left hj', List.getElem?_eq_getElem hj'])
  have htake : w.takeWhile (· != 0) = w := by
    refine List.takeWhile_eq_self_iff.2 fun c hc => ?_
    simp only [bne_iff_ne, ne_eq]
    rintro rfl
    exact hnull hc
  rw [SettingParser.wcsncpy, hmap, htake, if_pos hlength]

/-! ## Whitespace and comments -/

theorem getTokFrom_blank (h : Shows p i (c :: rest)) (hc : isBlank c = true) :
    p.getTokFrom n i = p.getTokFrom n (i + 1) := by
  have hlt := h.lt
  have hscan : Scan.scan p.bufferSize (fun j => !isBlank (p.buffer j)) i =
      Scan.scan p.bufferSize (fun j => !isBlank (p.buffer j)) (i + 1) := by
    refine Scan.scan_succ (by omega) ?_
    rw [h.head]
    simpa using hc
  cases n with
  | zero => rfl
  | succ n => simp only [getTokFrom, hscan]

/-- The end of a line comment. -/
theorem skipLine_eq (h : Shows p i (slash :: slash :: comment ++ lineFeed :: rest))
    (hcomment : lineFeed ∉ comment) : p.skipLine i = i + (comment.length + 3) := by
  have hscan := Shows.scan (a := slash :: comment) (b := lineFeed :: rest)
    (f := fun c => c == lineFeed) h.tail (fun c hc => ?_) rfl
  · have hlt := Shows.lt (Shows.drop (a := slash :: slash :: comment) h)
    simp only [skipLine, hscan, List.length_cons] at hlt ⊢
    rw [if_pos (by omega)]
    omega
  · simp only [beq_eq_false_iff_ne]
    rcases List.mem_cons.1 hc with rfl | hc
    · decide
    · rintro rfl
      exact hcomment hc

/-- A line comment may be the end of the text. -/
theorem skipLine_of_end (h : Shows p i (slash :: slash :: comment))
    (hcomment : lineFeed ∉ comment) : p.skipLine i = p.bufferSize := by
  have hsize := h.size
  have hscan : Scan.scan p.bufferSize (fun j => p.buffer j == lineFeed) (i + 1) = p.bufferSize := by
    refine Scan.scan_eq (by simp only [List.length_cons] at hsize; omega) le_rfl
      (fun j hj hj' => ?_) fun hlt => absurd hlt (lt_irrefl _)
    obtain ⟨d, rfl⟩ := Nat.exists_eq_add_of_le hj
    rw [List.length_cons] at hsize
    simp only [beq_eq_false_iff_ne]
    -- the slash, the comment and the null behind it
    rcases (by omega : d < (slash :: comment).length ∨ d = (slash :: comment).length) with hd | hd
    · rw [h.tail.chars d _ (List.getElem?_eq_getElem hd)]
      rcases List.mem_cons.1 (List.getElem_mem hd) with heq | hmem
      · rw [heq]
        decide
      · exact fun heq => hcomment (heq ▸ hmem)
    · rw [hd, h.tail.null]
      decide
  rw [skipLine, hscan]
  exact if_neg (lt_irrefl _)

theorem infix_of_getElem? {α : Type} {l : List α} {k : ℕ} {x y : α} (hx : l[k]? = some x)
    (hy : l[k + 1]? = some y) : [x, y] <:+: l := by
  obtain ⟨hk, rfl⟩ := List.getElem?_eq_some_iff.1 hx
  obtain ⟨hk', rfl⟩ := List.getElem?_eq_some_iff.1 hy
  refine ⟨l.take k, l.drop (k + 2), ?_⟩
  rw [List.append_assoc, List.cons_append, List.cons_append, List.nil_append,
    ← List.drop_eq_getElem_cons hk', ← List.drop_eq_getElem_cons hk, List.take_append_drop]

/-- The end of a block comment that does not start with a slash. -/
theorem skipBlock_eq (h : Shows p i (slash :: asterisk :: comment ++ asterisk :: slash :: rest))
    (hcomment : IsPlainBlock comment) : p.skipBlock i = i + (comment.length + 4) := by
  obtain ⟨hblock, hplain⟩ := hcomment
  have hbody : Shows p (i + 2) (comment ++ asterisk :: slash :: rest) := h.tail.tail
  have hend := hbody.drop
  have hlt := hend.lt
  simp only [List.length_cons] at hlt
  have hscan : Scan.scan p.bufferSize
      (fun j => p.buffer j == asterisk && p.buffer (j + 1) == slash) (i + 1) =
        i + 2 + comment.length := by
    refine Scan.scan_eq (by omega) (by omega) (fun j hj hj' => ?_) fun _ => ?_
    · obtain ⟨d, rfl⟩ := Nat.exists_eq_add_of_le hj
      by_contra hstop
      simp only [Bool.not_eq_false, Bool.and_eq_true, beq_iff_eq] at hstop
      obtain ⟨hstar, hslash⟩ := hstop
      cases d with
      | zero =>
        -- the asterisk that opens the comment
        have hhead : p.buffer (i + 2) = _ := hbody.head
        rw [show i + 1 + 0 + 1 = i + 2 by omega, hhead] at hslash
        cases comment with
        | nil => exact absurd hslash (by decide : asterisk ≠ slash)
        | cons c comment => exact hplain (congrArg some hslash)
      | succ d =>
        have hd : d < comment.length := by omega
        have hd' : (comment ++ asterisk :: slash :: rest)[d]? = some comment[d] := by
          rw [List.getElem?_append_left hd, List.getElem?_eq_getElem hd]
        have hget := hbody.chars d _ hd'
        rw [show i + 2 + d = i + 1 + (d + 1) by omega, hstar] at hget
        by_cases hlast : d + 1 < comment.length
        · have hget' := hbody.chars (d + 1) comment[d + 1] (by
            rw [List.getElem?_append_left hlast, List.getElem?_eq_getElem hlast])
          rw [show i + 2 + (d + 1) = i + 1 + (d + 1) + 1 by omega, hslash] at hget'
          exact hblock (infix_of_getElem? (k := d) (by rw [List.getElem?_eq_getElem hd, hget])
            (by rw [List.getElem?_eq_getElem hlast, hget']))
        · have hget' := hend.head
          rw [show i + 2 + comment.length = i + 1 + (d + 1) + 1 by omega, hslash] at hget'
          exact absurd hget' (by decide : slash ≠ asterisk)
    · rw [hend.head, hend.tail.head]
      rfl
  simp only [skipBlock, hscan]
  rw [if_pos (by omega)]
  omega

/-- **A block comment is skipped to its end just if its text does not start with
a slash.** -/
theorem skipBlock_eq_iff (h : Shows p i (slash :: asterisk :: comment ++ asterisk :: slash :: rest))
    (hcomment : IsBlock comment) :
    p.skipBlock i = i + (comment.length + 4) ↔ comment.head? ≠ some slash := by
  refine ⟨fun heq hslash => ?_, fun hplain => skipBlock_eq h ⟨hcomment, hplain⟩⟩
  obtain ⟨comment, rfl⟩ := List.head?_eq_some_iff.1 hslash
  have hlt := h.lt
  -- the scan stops where it starts
  have hscan : Scan.scan p.bufferSize
      (fun j => p.buffer j == asterisk && p.buffer (j + 1) == slash) (i + 1) = i + 1 :=
    Scan.scan_of_stop (by
      rw [h.tail.head, h.tail.tail.head]
      rfl)
  simp only [List.cons_append, List.length_cons] at hlt heq
  simp only [skipBlock, hscan] at heq
  rw [if_pos (by omega)] at heq
  omega

/-- Where the text does not go on with whitespace, `GetTok` looks at once. -/
theorem Shows.scan_blank (h : Shows p i rest) (hc : isBlank (rest.headD 0) = false) :
    Scan.scan p.bufferSize (fun j => !isBlank (p.buffer j)) i = i :=
  Shows.scan (a := []) (f := fun c => !isBlank c) h (fun _ hc => absurd hc List.not_mem_nil) (by
    rw [hc]
    rfl)

theorem Shows.ne_size (h : Shows p i rest) : i ≠ p.bufferSize := by
  have := h.size
  omega

theorem getTokFrom_line (h : Shows p i (slash :: slash :: rest)) :
    p.getTokFrom (n + 1) i = p.getTokFrom n (p.skipLine i) := by
  have h0 : p.buffer i = slash := h.head
  have h1 : p.buffer (i + 1) = slash := h.tail.head
  simp only [getTokFrom, h.scan_blank rfl, h0, h1]
  rw [if_neg (by rintro (heq | heq); exacts [absurd heq (by decide), h.ne_size heq])]
  simp only [and_self, if_true]

theorem getTokFrom_block (h : Shows p i (slash :: asterisk :: rest)) :
    p.getTokFrom (n + 1) i = p.getTokFrom n (p.skipBlock i) := by
  have h0 : p.buffer i = slash := h.head
  have h1 : p.buffer (i + 1) = asterisk := h.tail.head
  simp only [getTokFrom, h.scan_blank rfl, h0, h1]
  rw [if_neg (by rintro (heq | heq); exacts [absurd heq (by decide), h.ne_size heq]),
    if_neg fun heq => absurd heq.2 (by decide)]
  simp only [and_self, if_true]

theorem isBlank_of_mem (h : c ∈ whitespace) : isBlank c = true := by
  simp only [whitespace, List.mem_cons, List.not_mem_nil, or_false] at h
  rcases h with rfl | rfl | rfl | rfl <;> decide

theorem Piece.length_pos (piece : Piece) : 0 < piece.text.length := by
  cases piece <;> simp [Piece.text]

/-- `GetTok` moves past whitespace and comments. -/
theorem getTokFrom_pieces {pieces : List Piece} (hok : ∀ q ∈ pieces, q.Ok IsPlainBlock) {k : ℕ}
    (h : Shows p i (pieces.flatMap Piece.text ++ rest)) (hk : n + pieces.length ≤ k) :
    ∃ m, n ≤ m ∧ p.getTokFrom k i = p.getTokFrom m (i + (pieces.flatMap Piece.text).length) := by
  induction pieces generalizing i k with
  | nil => exact ⟨k, hk, rfl⟩
  | cons piece pieces ih =>
    have hrest := fun q hq => hok q (List.mem_cons_of_mem _ hq)
    have hpiece := hok piece List.mem_cons_self
    rw [List.length_cons] at hk
    rw [List.flatMap_cons, List.append_assoc] at h
    rw [List.flatMap_cons, List.length_append, ← Nat.add_assoc i]
    cases piece with
    | blank c =>
      -- whitespace takes no call of its own
      rw [getTokFrom_blank h (isBlank_of_mem hpiece)]
      exact ih hrest h.drop (by omega)
    | line comment =>
      obtain ⟨k, rfl⟩ : ∃ k', k = k' + 1 := ⟨k - 1, by omega⟩
      have hend : p.skipLine i = i + (Piece.line comment).text.length := by
        simp only [Piece.text, List.cons_append, List.append_assoc, List.nil_append] at h
        rw [skipLine_eq h hpiece]
        simp [Piece.text]
      have hstart := h
      simp only [Piece.text, List.cons_append] at hstart
      rw [getTokFrom_line hstart, hend]
      exact ih hrest h.drop (by omega)
    | block comment =>
      obtain ⟨k, rfl⟩ : ∃ k', k = k' + 1 := ⟨k - 1, by omega⟩
      have hend : p.skipBlock i = i + (Piece.block comment).text.length := by
        simp only [Piece.text, List.cons_append, List.append_assoc, List.nil_append] at h
        rw [skipBlock_eq h hpiece]
        simp [Piece.text]
      have hstart := h
      simp only [Piece.text, List.cons_append] at hstart
      rw [getTokFrom_block hstart, hend]
      exact ih hrest h.drop (by omega)

/-- After the last token there is no word. -/
theorem getTokFrom_trailing (h : Shows p i rest) (hrest : Trailing rest) :
    ∃ j, p.getTokFrom (n + 2) i = .ok (none, j) := by
  cases hrest with
  | nil =>
    refine ⟨i, ?_⟩
    simp only [getTokFrom, h.scan_blank (show isBlank 0 = false by rfl)]
    exact if_pos (Or.inl h.null)
  | comment hcomment =>
    refine ⟨p.bufferSize, ?_⟩
    rw [getTokFrom_line h, skipLine_of_end h hcomment]
    simp only [getTokFrom, Scan.scan_of_size_le le_rfl]
    exact if_pos (Or.inr trivial)

/-! ## Tokens -/

def Token.Ok : Token → Prop
  | .value v => v.Ok
  | .delimiter c => isSingle c = true

/-- The word that a token is for `Parse`. -/
def Token.word : Token → WString
  | .value v => v.text
  | .delimiter c => [c]

theorem IsBare.ne {w : WString} (h : IsBare w) (hc : c ∈ w) :
    isBlank c = false ∧ endsWord c = false ∧ isSingle c = false ∧ c ≠ quote ∧ c ≠ 0 := by
  have := h.plain c hc
  simp only [List.mem_cons, List.not_mem_nil, or_false, not_or] at this
  obtain ⟨h1, h2, h3, h4, h5, h6, h7, h8, h9, h10⟩ := this
  refine ⟨?_, ?_, ?_, h7, h5⟩
  · simp [isBlank, h1, h2, h3, h4, h6]
  · have h5' : ¬ c = 0#16 := h5
    simp [endsWord, h1, h2, h3, h4, h5', h8, h9, h10]
  · simp [isSingle, h8, h9, h10]

theorem endsWord_of_endsBare (h : EndsBare rest) : endsWord (rest.headD 0) = true := by
  cases rest with
  | nil => rfl
  | cons c rest =>
    rcases h c rfl with hc | hc
    · simp only [whitespace, List.mem_cons, List.not_mem_nil, or_false] at hc
      rw [List.headD_cons]
      rcases hc with rfl | rfl | rfl | rfl <;> decide
    · simp only [isSingle, Bool.or_eq_true, beq_iff_eq] at hc
      rw [List.headD_cons]
      rcases hc with (rfl | rfl) | rfl <;> decide

/-- A word without quotes. -/
theorem getTokFrom_bare (h : Shows p i (w ++ rest)) (hw : IsBare w) (hrest : EndsBare rest) :
    p.getTokFrom (n + 1) i = .ok (some w, i + w.length) := by
  obtain ⟨c, w, rfl⟩ := List.exists_cons_of_ne_nil hw.nonempty
  obtain ⟨hblank, hends, hsingle, hquote, hnull⟩ := hw.ne List.mem_cons_self
  have h0 : p.buffer i = c := h.head
  have h1 : p.buffer (i + 1) = (w ++ rest).headD 0 := h.tail.head
  -- no comment starts here: what follows the word is no slash and no asterisk
  have hcomment {x : WChar} (hx : x = slash ∨ x = asterisk) (hno : ¬ [slash, x] <+: c :: w) :
      ¬ (c = slash ∧ (w ++ rest).headD 0 = x) := by
    rintro ⟨rfl, hnext⟩
    cases w with
    | nil =>
      have := endsWord_of_endsBare hrest
      rw [List.nil_append] at hnext
      rw [hnext] at this
      rcases hx with rfl | rfl <;> exact absurd this (by decide)
    | cons y w =>
      obtain rfl : y = x := hnext
      exact hno ⟨w, rfl⟩
  have hscan := Shows.scan (a := w) (b := rest) (f := endsWord) h.tail
    (fun y hy => (hw.ne (List.mem_cons_of_mem c hy)).2.1) (endsWord_of_endsBare hrest)
  have hcopy := Shows.wcsncpy (w := c :: w) h (fun hmem => (hw.ne hmem).2.2.2.2 rfl) hw.length
  simp only [getTokFrom, h.scan_blank hblank, h0, h1, hscan]
  rw [if_neg (by rintro (heq | heq); exacts [hnull heq, h.ne_size heq]),
    if_neg (hcomment (.inl rfl) hw.noLine), if_neg (hcomment (.inr rfl) hw.noBlock),
    if_neg hquote, if_neg (by rw [hsingle]; exact Bool.false_ne_true), if_neg h.ne_size]
  rw [show i + 1 + w.length - i = (c :: w).length by rw [List.length_cons]; omega, hcopy,
    List.length_cons, Nat.add_assoc i, Nat.add_comm 1]
  rfl

/-- A value in quotes. -/
theorem getTokFrom_quoted (h : Shows p i (quote :: w ++ [quote] ++ rest)) (hw : IsQuoted w) :
    p.getTokFrom (n + 1) i = .ok (some w, i + (w.length + 2)) := by
  rw [List.append_assoc] at h
  have hbody : Shows p (i + 1) (w ++ quote :: rest) := h.tail
  have h0 : p.buffer i = quote := h.head
  have hplain (c : WChar) (hc : c ∈ w) : c ≠ quote ∧ c ≠ 0 := by
    have := hw.plain c hc
    simpa only [List.mem_cons, List.not_mem_nil, or_false, not_or] using this
  have hscan := Shows.scan (f := fun c => c == quote) hbody
    (fun c hc => by simpa using (hplain c hc).1) rfl
  have hcopy := hbody.wcsncpy (fun hmem => (hplain 0 hmem).2 rfl) hw.length
  have hlt := hbody.drop.lt
  rw [List.length_cons] at hlt
  simp only [getTokFrom, h.scan_blank rfl, h0, hscan]
  rw [if_neg (by rintro (heq | heq); exacts [absurd heq (by decide), h.ne_size heq]),
    if_neg fun heq => absurd heq.1 (by decide), if_neg fun heq => absurd heq.1 (by decide),
    if_pos trivial, if_neg (by omega : ¬ i + 1 = p.bufferSize),
    if_pos (by omega : i + 1 + w.length < p.bufferSize)]
  rw [show i + 1 + w.length + 1 - (i + 1) - 1 = w.length by omega, hcopy,
    show i + 1 + w.length + 1 = i + (w.length + 2) by omega]
  rfl

theorem getTokFrom_delimiter (h : Shows p i (c :: rest)) (hc : isSingle c = true) :
    p.getTokFrom (n + 1) i = .ok (some [c], i + 1) := by
  have h0 : p.buffer i = c := h.head
  have hne : c ≠ 0 ∧ c ≠ slash ∧ c ≠ quote ∧ isBlank c = false := by
    simp only [isSingle, Bool.or_eq_true, beq_iff_eq] at hc
    rcases hc with (rfl | rfl) | rfl <;> decide
  obtain ⟨hnull, hslash, hquote, hblank⟩ := hne
  have hcopy := Shows.wcsncpy (w := [c]) h
    (fun hmem => hnull (List.mem_singleton.1 hmem).symm) (by rw [List.length_singleton]; decide)
  simp only [getTokFrom, h.scan_blank hblank, h0]
  rw [if_neg (by rintro (heq | heq); exacts [hnull heq, h.ne_size heq]),
    if_neg fun heq => hslash heq.1, if_neg fun heq => hslash heq.1, if_neg hquote, if_pos hc]
  rw [show (1 : ℕ) = [c].length by rfl, hcopy]
  rfl

/-- **At a token `GetTok` takes the token.** -/
theorem getTokFrom_token {t : Token} (h : Shows p i (t.text ++ rest)) (ht : t.Ok)
    (hbare : ∀ w, t = .value (.bare w) → EndsBare rest) :
    p.getTokFrom (n + 1) i = .ok (some t.word, i + t.text.length) := by
  cases t with
  | value v =>
    cases v with
    | bare w => exact getTokFrom_bare h ht (hbare w rfl)
    | quoted w =>
      rw [getTokFrom_quoted h ht]
      simp [Token.word, Token.text, Value.text]
  | delimiter c => exact getTokFrom_delimiter h ht

/-! ## The text that is left -/

/-- The parser, further on in the text. -/
def moveTo (p : SettingParser) (i : ℕ) : SettingParser := { p with bufferIndex := i }

theorem Shows.moveTo (h : Shows p i rest) : Shows (p.moveTo i) (p.moveTo i).bufferIndex rest :=
  ⟨h.chars, h.null, h.size⟩

/-- The tokens are what is left of the text. -/
def Reads (p : SettingParser) (ts : List Token) : Prop :=
  ∃ text, Layout IsPlainBlock ts text ∧ Shows p p.bufferIndex text

theorem length_pieces (pieces : List Piece) :
    pieces.length ≤ (pieces.flatMap Piece.text).length := by
  induction pieces with
  | nil => exact le_rfl
  | cons q pieces ih =>
    have := q.length_pos
    rw [List.flatMap_cons, List.length_append, List.length_cons]
    omega

theorem getTok_of_from {r : Option WString} {j : ℕ}
    (h : p.getTokFrom (p.bufferSize + 1) p.bufferIndex = .ok (r, j)) :
    p.getTok = .ok (r, p.moveTo j) := by
  rw [getTok, h]
  rfl

/-- **`GetTok` takes the first token that is left.** -/
theorem Reads.getTok {t : Token} {ts : List Token} (h : Reads p (t :: ts)) (ht : t.Ok) :
    ∃ j, p.getTok = .ok (some t.word, p.moveTo j) ∧ Reads (p.moveTo j) ts := by
  obtain ⟨text, hlayout, hshows⟩ := h
  cases hlayout with
  | @token pieces _ _ rest hpieces hbare hrest =>
    have hsize := hshows.size
    have hlength := length_pieces pieces
    rw [List.length_append] at hsize
    obtain ⟨m, hm, hpass⟩ := getTokFrom_pieces (n := 1) (k := p.bufferSize + 1) hpieces hshows
      (by omega)
    obtain ⟨n, rfl⟩ : ∃ n, m = n + 1 := ⟨m - 1, by omega⟩
    rw [getTokFrom_token hshows.drop ht hbare] at hpass
    exact ⟨_, getTok_of_from hpass, rest, hrest, hshows.drop.drop.moveTo⟩

/-- After the last token `GetTok` returns `false`. -/
theorem Reads.getTok_nil (h : Reads p []) : ∃ j, p.getTok = .ok (none, p.moveTo j) := by
  obtain ⟨text, hlayout, hshows⟩ := h
  cases hlayout with
  | @done pieces rest hpieces hrest =>
    have hsize := hshows.size
    have hlength := length_pieces pieces
    rw [List.length_append] at hsize
    obtain ⟨m, hm, hpass⟩ := getTokFrom_pieces (n := 2) (k := p.bufferSize + 1) hpieces hshows
      (by omega)
    obtain ⟨n, rfl⟩ : ∃ n, m = n + 2 := ⟨m - 2, by omega⟩
    obtain ⟨j, hj⟩ := getTokFrom_trailing (n := n) hshows.drop hrest
    exact ⟨j, getTok_of_from (hpass.trans hj)⟩

end SettingParser

end NetLib
