import NetLib.Settings.Checked
/-!
# The words of a written text

A text that writes tokens has just their words, whatever stands between them,
and no null before its end.
-/

namespace NetLib

namespace SettingParser

open WChar

variable {text w comment rest : WString} {c : WChar} {ts : List Token} {t : Token}

/-! ## Comments -/

theorem words_line (h : lineFeed ∉ comment) :
    words .line (comment ++ lineFeed :: rest) = words .gap rest := by
  induction comment with
  | nil => rw [List.nil_append, words, if_pos rfl]
  | cons c comment ih =>
    rw [List.mem_cons, not_or] at h
    rw [List.cons_append, words, if_neg (Ne.symm h.1), ih h.2]

theorem words_line_of_end (h : lineFeed ∉ comment) : words .line comment = ([], .unclosed) := by
  induction comment with
  | nil => rfl
  | cons c comment ih =>
    rw [List.mem_cons, not_or] at h
    rw [words, if_neg (Ne.symm h.1), ih h.2]

theorem words_block (h : IsBlock comment) :
    words .block (comment ++ asterisk :: slash :: rest) = words .gap rest := by
  induction comment with
  | nil => rfl
  | cons c comment ih =>
    have hne : ¬(c = asterisk ∧ (comment ++ asterisk :: slash :: rest).headD 0 = slash) := by
      rintro ⟨rfl, hhead⟩
      cases comment with
      | nil => cases hhead
      | cons d comment =>
        obtain rfl : d = slash := hhead
        exact h ⟨[], comment, rfl⟩
    rw [List.cons_append, words, if_neg hne]
    exact ih fun hinfix => h (List.infix_cons hinfix)

/-- Between the words there is nothing to read. -/
theorem words_piece {piece : Piece} (h : piece.Ok IsPlainBlock) :
    words .gap (piece.text ++ rest) = words .gap rest := by
  cases piece with
  | blank c => exact if_pos (isBlank_of_mem h)
  | line comment =>
    have hslash : lineFeed ∉ slash :: comment := fun hmem =>
      (List.mem_cons.1 hmem).elim nofun h
    have hline : words .line (slash :: comment ++ lineFeed :: rest) = words .gap rest :=
      words_line hslash
    rw [← hline, Piece.text, List.append_assoc]
    rfl
  | block comment =>
    have hstar : IsBlock (asterisk :: comment) := by
      intro hinfix
      rcases List.infix_cons_iff.1 hinfix with hstart | hinfix
      · obtain ⟨after, heq⟩ := hstart
        exact h.2 (by rw [← (List.cons.inj heq).2]; rfl)
      · exact h.1 hinfix
    have hblock : words .block (asterisk :: comment ++ asterisk :: slash :: rest) =
        words .gap rest := words_block hstar
    rw [← hblock, Piece.text, List.append_assoc]
    rfl

theorem words_pieces {pieces : List Piece} (h : ∀ p ∈ pieces, p.Ok IsPlainBlock) :
    words .gap (pieces.flatMap Piece.text ++ rest) = words .gap rest := by
  induction pieces with
  | nil => rfl
  | cons piece pieces ih =>
    obtain ⟨hpiece, hpieces⟩ := List.forall_mem_cons.1 h
    rw [List.flatMap_cons, List.append_assoc, words_piece hpiece, ih hpieces]

/-! ## Tokens -/

theorem words_quoted (h : quote ∉ w) (v : WString) :
    words (.quoted v) (w ++ quote :: rest) = addWord (untilNull (v ++ w)) (words .gap rest) := by
  induction w generalizing v with
  | nil => rw [List.nil_append, words, if_pos rfl, List.append_nil]
  | cons c w ih =>
    rw [List.mem_cons, not_or] at h
    rw [List.cons_append, words, if_neg (Ne.symm h.1), ih h.2, List.append_assoc,
      List.singleton_append]

theorem words_delimiter (hc : isSingle c = true) :
    words .gap (c :: rest) = addWord [c] (words .gap rest) := by
  simp only [isSingle, Bool.or_eq_true, beq_iff_eq] at hc
  rcases hc with (rfl | rfl) | rfl <;> rfl

theorem words_word (h : IsBare w) (hrest : EndsBare rest) :
    words .gap (w ++ rest) = addWord w (words .gap rest) := by
  obtain ⟨c, w, rfl⟩ := List.exists_cons_of_ne_nil h.nonempty
  obtain ⟨hblank, -, hsingle, hquote, hnull⟩ := h.ne List.mem_cons_self
  have hends := endsWord_of_endsBare hrest
  -- a comment does not begin with the word, nor with what is behind it
  have hcomment {d : WChar} (hd : endsWord d = false) (hstart : ¬[slash, d] <+: c :: w) :
      ¬(c = slash ∧ (w ++ rest).headD 0 = d) := by
    rintro ⟨rfl, hhead⟩
    cases w with
    | nil =>
      rw [List.nil_append] at hhead
      rw [hhead, hd] at hends
      cases hends
    | cons d' w =>
      obtain rfl : d' = d := hhead
      exact hstart ⟨w, rfl⟩
  have hword (c' : WChar) (hc' : c' ∈ w) : (!endsWord c') = true := by
    rw [(h.ne (List.mem_cons_of_mem _ hc')).2.1]
    rfl
  rw [List.cons_append, words, if_neg (by rw [hblank]; exact Bool.false_ne_true), if_neg hnull,
    if_neg (hcomment rfl h.noLine), if_neg (hcomment rfl h.noBlock), if_neg hquote,
    if_neg (by rw [hsingle]; exact Bool.false_ne_true), words_bare,
    List.takeWhile_append_of_pos hword, List.dropWhile_append_of_pos hword]
  cases rest with
  | nil => rw [List.takeWhile_nil, List.dropWhile_nil, List.append_nil, List.singleton_append]
  | cons d rest =>
    have hd : endsWord d = true := hends
    simp [hd]

/-- A token is one word. -/
theorem words_token (ht : t.Ok) (hbare : ∀ w, t = .value (.bare w) → EndsBare rest) :
    words .gap (t.text ++ rest) = addWord t.word (words .gap rest) := by
  cases t with
  | delimiter c => exact words_delimiter ht
  | value v =>
    cases v with
    | bare w => exact words_word ht (hbare w rfl)
    | quoted w =>
      have hquote : quote ∉ w := fun hmem => ht.plain _ hmem (by simp)
      have hnull : (0 : WChar) ∉ w := fun hmem => ht.plain _ hmem (by simp)
      have hwords : words (.quoted []) (w ++ quote :: rest) =
          addWord (untilNull ([] ++ w)) (words .gap rest) := words_quoted hquote []
      rw [List.nil_append, untilNull_of_notMem hnull] at hwords
      rw [Token.word, Value.text, ← hwords, Token.text, List.append_assoc]
      rfl

/-- **A text that writes tokens has just their words**, and is read to its end. -/
theorem words_of_layout (hok : ∀ t ∈ ts, t.Ok) (h : Layout IsPlainBlock ts text) :
    (words .gap text).1 = ts.map Token.word ∧ ReadsThrough text := by
  induction h with
  | @done pieces rest hpieces hrest =>
    rw [ReadsThrough, words_pieces hpieces]
    cases hrest with
    | nil => exact ⟨rfl, .inl rfl⟩
    | @comment comment h =>
      have hslash : lineFeed ∉ slash :: comment := fun hmem =>
        (List.mem_cons.1 hmem).elim nofun h
      have hwords : words .gap (slash :: slash :: comment) = ([], .unclosed) :=
        words_line_of_end hslash
      rw [hwords]
      exact ⟨rfl, .inr rfl⟩
  | @token pieces t ts rest hpieces hbare _ ih =>
    obtain ⟨ht, hts⟩ := List.forall_mem_cons.1 hok
    obtain ⟨hwords, hend⟩ := ih hts
    rw [ReadsThrough, words_pieces hpieces, words_token ht hbare]
    exact ⟨congrArg (t.word :: ·) hwords, hend⟩

end SettingParser

end NetLib
