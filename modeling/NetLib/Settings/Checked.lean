import NetLib.Settings.Tokens
import NetLib.Settings.Words
/-!
# `Parse`, access by access

The parser with every access to `_buffer` made by a function of its own. With
one that reads whatever is there it is the parser; with one that fails behind
the end of the buffer it shows what the parser reads. What it takes from a text
are the words of the text.
-/

namespace NetLib

namespace SettingParser

open WChar

/-- How a parser fails that looks at its accesses. -/
inductive Failure
  /-- `_buffer` is read at an index that is not below `bufferSize`. -/
  | readPast (i : ℕ)
  /-- A terminator is written behind the end of a word. -/
  | writePast (i : ℕ)
  | parser (e : SettingError)
  deriving DecidableEq

/-- An access to `_buffer`. -/
abbrev See := ℕ → Except Failure WChar

variable (p : SettingParser) (see : See)

/-- Any access goes. -/
def anywhere : See := fun i => .ok (p.buffer i)

/-- Accesses below `bufferSize` go. -/
def inside : See := fun i =>
  if i < p.bufferSize then .ok (p.buffer i) else .error (.readPast i)

/-- `while (i < size) { if (stop) break; i++; }`, over at most `n` indices. -/
def scanBy (stop : ℕ → Except Failure Bool) : ℕ → ℕ → Except Failure ℕ
  | 0, i => .ok i
  | n + 1, i => do if ← stop i then return i else scanBy stop n (i + 1)

/-- `_buffer[i] == c && _buffer[i + 1] == d` -/
def isPair (c d : WChar) (i : ℕ) : Except Failure Bool := do
  if (← see i) = c then return (← see (i + 1)) == d else return false

/-- `_buffer[i]` is a character that `f` is true of. -/
def isChar (f : WChar → Bool) (i : ℕ) : Except Failure Bool := do return f (← see i)

/-- What `wcsncpy_s` reads: up to a null, and no more than `count`. -/
def copyBy (start : ℕ) : ℕ → Except Failure WString
  | 0 => .ok []
  | count + 1 => do
    let c ← see start
    if c = 0 then return [] else return c :: (← copyBy (start + 1) count)

/-- `wcsncpy_s(word, MAX_WORD_SIZE, &_buffer[start], count)` -/
def wcsncpyBy (start count : ℕ) : Except Failure WString := do
  let word ← copyBy see start count
  if word.length < MAX_WORD_SIZE then return word else throw (.parser .invalidParameter)

/-- `wcsncpy_s`, and `word[wordSize] = L'\0'` -/
def terminatedBy (start wordSize : ℕ) : Except Failure WString := do
  let word ← wcsncpyBy see start wordSize
  if wordSize < MAX_WORD_SIZE then return word else throw (.writePast wordSize)

/-- What `GetTok` does at the first character of a word. -/
def wordBy (i : ℕ) : Except Failure (Option WString × ℕ) := do
  if (← see i) = quote then
    let close ← scanBy (isChar see (· == quote)) (p.bufferSize - (i + 1)) (i + 1)
    let wordEnd := if close < p.bufferSize then close + 1 else close
    if i + 1 = p.bufferSize then return (none, i + 1)
    else return (some (← wcsncpyBy see (i + 1) (wordEnd - (i + 1) - 1)), wordEnd)
  else if isSingle (← see i) then return (some (← terminatedBy see i 1), i + 1)
  else
    let wordEnd ← scanBy (isChar see endsWord) (p.bufferSize - (i + 1)) (i + 1)
    if i = p.bufferSize then return (none, i)
    else return (some (← terminatedBy see i (wordEnd - i)), wordEnd)

/-- `GetTok` from the index `start` on. -/
def getTokBy : ℕ → ℕ → Except Failure (Option WString × ℕ)
  | 0, _ => throw (.parser .outOfFuel)
  | fuel + 1, start => do
    let i ← scanBy (isChar see fun c => !isBlank c) (p.bufferSize - start) start
    if (← see i) = 0 ∨ i = p.bufferSize then return (none, i)
    else if ← isPair see slash slash i then
      let wordEnd ← scanBy (isChar see (· == lineFeed)) (p.bufferSize - (i + 1)) (i + 1)
      getTokBy fuel (if wordEnd < p.bufferSize then wordEnd + 1 else wordEnd)
    else if ← isPair see slash asterisk i then
      let wordEnd ← scanBy (isPair see asterisk slash) (p.bufferSize - (i + 1)) (i + 1)
      getTokBy fuel (if wordEnd < p.bufferSize then wordEnd + 2 else wordEnd)
    else p.wordBy see i

variable (access : SettingParser → See)

def nextTokBy : Except Failure (Option WString × SettingParser) := do
  let r ← p.getTokBy (access p) (p.bufferSize + 1) p.bufferIndex
  return (r.1, p.moveTo r.2)

/-- The loop of `Parse`. -/
def parseLoopBy : ℕ → SettingParser → Except Failure SettingParser
  | 0, _ => throw (.parser .outOfFuel)
  | fuel + 1, p => do
    match ← p.nextTokBy access with
    | (none, p) => return p
    | (some key, p) =>
      if key.headD 0 = closeBrace then parseLoopBy fuel p
      else match ← p.nextTokBy access with
      | (none, p) => return p
      | (some op, p) =>
        if op.headD 0 ≠ colon then throw (.parser (.expectedColon (op.headD 0)))
        else match ← p.nextTokBy access with
        | (none, p) => return p
        | (some value, p) => do
          let p ← (if value.headD 0 = openBrace then p.openGroup key
            else p.store key value).mapError .parser
          parseLoopBy fuel p

def parseBy : Except Failure SettingParser := parseLoopBy access (p.bufferSize + 1) p

/-! ## Scans -/

variable {p : SettingParser} {see : See} {i j n : ℕ} {text rest w : WString} {c : WChar}

theorem scanBy_eq {stop : ℕ → Except Failure Bool} {f : ℕ → Bool} {size : ℕ}
    (h : ∀ j, i ≤ j → j < size → stop j = .ok (f j)) :
    scanBy stop (size - i) i = .ok (Scan.scan size f i) := by
  rw [Scan.scan]
  obtain ⟨n, hn⟩ : ∃ n, size - i = n := ⟨_, rfl⟩
  rw [hn]
  induction n generalizing i with
  | zero => rfl
  | succ n ih =>
    rw [scanBy, h i le_rfl (by omega), Scan.scanFor]
    cases f i with
    | true => rfl
    | false => exact ih (fun j hj hj' => h j (by omega) hj') (by omega)

/-- Below the end of the buffer, the accesses go. -/
def Sees (p : SettingParser) (see : See) : Prop := ∀ i < p.bufferSize, see i = .ok (p.buffer i)

theorem sees_anywhere (p : SettingParser) : p.Sees p.anywhere := fun _ _ => rfl

theorem sees_inside (p : SettingParser) : p.Sees p.inside := fun _ hi => if_pos hi

theorem Sees.isChar (hsee : p.Sees see) (f : WChar → Bool) (hi : i < p.bufferSize) :
    isChar see f i = .ok (f (p.buffer i)) := by
  rw [SettingParser.isChar, hsee i hi]
  rfl

theorem Sees.isPair (hsee : p.Sees see) (h : Shows p i rest) {c d : WChar} (hc : c ≠ 0) :
    isPair see c d i = .ok (p.buffer i == c && p.buffer (i + 1) == d) := by
  have hsize := h.size
  rw [SettingParser.isPair, hsee i (by omega)]
  cases rest with
  | nil =>
    have hne : ¬p.buffer i = c := fun heq => hc (heq.symm.trans h.null)
    have hne' : (p.buffer i == c) = false := beq_eq_false_iff_ne.2 hne
    rw [hne']
    exact if_neg hne
  | cons x rest =>
    rw [List.length_cons] at hsize
    by_cases heq : p.buffer i = c
    · have heq' : (p.buffer i == c) = true := beq_iff_eq.2 heq
      rw [heq', hsee (i + 1) (by omega)]
      exact if_pos heq
    · have heq' : (p.buffer i == c) = false := beq_eq_false_iff_ne.2 heq
      rw [heq']
      exact if_neg heq

/-- An index in the text that is left shows the rest of it. -/
theorem Shows.at (h : Shows p i rest) (hle : i ≤ j) (hlt : j < p.bufferSize) :
    ∃ rest', Shows p j rest' := by
  obtain ⟨d, rfl⟩ := Nat.exists_eq_add_of_le hle
  have hsize := h.size
  have hd : (rest.take d).length = d := by
    rw [List.length_take]
    omega
  rw [← List.take_append_drop d rest] at h
  have hdrop := h.drop
  rw [hd] at hdrop
  exact ⟨_, hdrop⟩

/-! ## Modes -/

/-- Whitespace and byte order marks are passed over. -/
theorem Shows.scan_gap (h : Shows p i text) : ∃ j rest, Shows p j rest ∧ i ≤ j ∧
    Scan.scan p.bufferSize (fun j => !isBlank (p.buffer j)) i = j ∧
    words .gap text = words .gap rest ∧ isBlank (rest.headD 0) = false := by
  induction text generalizing i with
  | nil => exact ⟨i, [], h, le_rfl, h.scan_blank rfl, rfl, rfl⟩
  | cons c text ih =>
    cases hc : isBlank c with
    | true =>
      obtain ⟨j, rest, hj, hle, hscan, hwords, hblank⟩ := ih h.tail
      have hlt := h.lt
      refine ⟨j, rest, hj, by omega, ?_, ?_, hblank⟩
      · rw [Scan.scan_succ (by omega) (by rw [h.head]; simp only [List.headD_cons, hc]; rfl), hscan]
      · rw [words, if_pos hc, hwords]
    | false => exact ⟨i, c :: text, h, le_rfl, h.scan_blank hc, rfl, hc⟩

/-- A scan that does not stop at the last null is at the end of the buffer. -/
theorem Shows.scan_end (h : Shows p i []) {f : ℕ → Bool} (hf : f i = false) :
    Scan.scan p.bufferSize f i = p.bufferSize := by
  have hsize : p.bufferSize = i + 1 := h.size
  rw [Scan.scan_succ (by omega) hf, Scan.scan_of_size_le hsize.le, hsize]

theorem Shows.scan_line (h : Shows p i text) :
    (Scan.scan p.bufferSize (fun j => p.buffer j == lineFeed) i = p.bufferSize ∧
      words .line text = ([], .unclosed)) ∨
    ∃ j rest, Scan.scan p.bufferSize (fun j => p.buffer j == lineFeed) i = j ∧ i ≤ j ∧
      j < p.bufferSize ∧ Shows p (j + 1) rest ∧ words .line text = words .gap rest := by
  have hlt := h.lt
  induction text generalizing i with
  | nil =>
    exact .inl ⟨h.scan_end (by rw [h.head]; rfl), rfl⟩
  | cons c text ih =>
    by_cases hc : c = lineFeed
    · refine .inr ⟨i, text, Scan.scan_of_stop (by rw [h.head]; exact beq_iff_eq.2 hc), le_rfl,
        by omega, h.tail, ?_⟩
      rw [words, if_pos hc]
    · have hstep : Scan.scan p.bufferSize (fun j => p.buffer j == lineFeed) i =
          Scan.scan p.bufferSize (fun j => p.buffer j == lineFeed) (i + 1) :=
        Scan.scan_succ (by omega) (by rw [h.head]; exact beq_eq_false_iff_ne.2 hc)
      rw [hstep, words, if_neg hc]
      exact (ih h.tail h.tail.lt).imp_right fun ⟨j, rest, hj, hle, hrest⟩ =>
        ⟨j, rest, hj, by omega, hrest⟩

theorem Shows.scan_block (h : Shows p i text) :
    let stop := fun j => p.buffer j == asterisk && p.buffer (j + 1) == slash
    (Scan.scan p.bufferSize stop i = p.bufferSize ∧ words .block text = ([], .unclosed)) ∨
    ∃ j rest, Scan.scan p.bufferSize stop i = j ∧ i ≤ j ∧ j < p.bufferSize ∧
      Shows p (j + 2) rest ∧ words .block text = words .gap rest := by
  intro stop
  have hlt := h.lt
  induction text generalizing i with
  | nil =>
    have hnull : stop i = false := by
      simp only [stop, h.head]
      rfl
    exact .inl ⟨h.scan_end hnull, rfl⟩
  | cons c text ih =>
    have hhead : p.buffer i = c := h.head
    have hnext : p.buffer (i + 1) = text.headD 0 := h.tail.head
    by_cases hc : c = asterisk ∧ text.headD 0 = slash
    · have hstop : stop i = true := by
        simp only [stop, hhead, hnext, hc]
        rfl
      obtain ⟨text, rfl⟩ : ∃ text', text = slash :: text' := by
        cases text with
        | nil => exact absurd hc.2 (by decide)
        | cons d text => exact ⟨text, congrArg (· :: text) hc.2⟩
      refine .inr ⟨i, text, Scan.scan_of_stop hstop, le_rfl, by omega, h.tail.tail, ?_⟩
      rw [words, if_pos hc, words]
    · have hpass : stop i = false := by
        simp only [stop, hhead, hnext]
        by_contra hstop
        simp only [Bool.not_eq_false, Bool.and_eq_true, beq_iff_eq] at hstop
        exact hc hstop
      rw [Scan.scan_succ (by omega) hpass, words, if_neg hc]
      exact (ih h.tail h.tail.lt).imp_right fun ⟨j, rest, hj, hle, hrest⟩ =>
        ⟨j, rest, hj, by omega, hrest⟩

/-- The text between the quotes is `a`. -/
theorem Shows.scan_quoted (h : Shows p i text) (w : WString) :
    (Scan.scan p.bufferSize (fun j => p.buffer j == quote) i = p.bufferSize ∧
      words (.quoted w) text = ([untilNull (w ++ text)], .unclosed)) ∨
    ∃ a rest, text = a ++ quote :: rest ∧
      Scan.scan p.bufferSize (fun j => p.buffer j == quote) i = i + a.length ∧
      words (.quoted w) text = addWord (untilNull (w ++ a)) (words .gap rest) := by
  have hlt := h.lt
  induction text generalizing i w with
  | nil =>
    exact .inl ⟨h.scan_end (by rw [h.head]; rfl), by rw [words, List.append_nil]⟩
  | cons c text ih =>
    by_cases hc : c = quote
    · refine .inr ⟨[], text, by rw [hc]; rfl,
        Scan.scan_of_stop (by rw [h.head]; exact beq_iff_eq.2 hc), ?_⟩
      rw [words, if_pos hc, List.append_nil]
    · have hstep : Scan.scan p.bufferSize (fun j => p.buffer j == quote) i =
          Scan.scan p.bufferSize (fun j => p.buffer j == quote) (i + 1) :=
        Scan.scan_succ (by omega) (by rw [h.head]; exact beq_eq_false_iff_ne.2 hc)
      rw [hstep, words, if_neg hc]
      rcases ih h.tail (w ++ [c]) h.tail.lt with ⟨hscan, hwords⟩ | ⟨a, rest, rfl, hscan, hwords⟩
      · refine .inl ⟨hscan, ?_⟩
        rw [hwords, List.append_assoc, List.singleton_append]
      · refine .inr ⟨c :: a, rest, rfl, ?_, ?_⟩
        · rw [hscan, List.length_cons]
          omega
        · rw [hwords, List.append_assoc, List.singleton_append]

/-- A word without quotes goes up to the first character that ends it. -/
theorem words_bare (w text : WString) :
    (if endsWord (text.headD 0) then addWord w (words .gap text) else words (.bare w) text) =
      addWord (w ++ text.takeWhile (!endsWord ·)) (words .gap (text.dropWhile (!endsWord ·))) := by
  induction text generalizing w with
  | nil =>
    rw [List.takeWhile_nil, List.dropWhile_nil, List.append_nil]
    exact if_pos rfl
  | cons c text ih =>
    rw [List.headD_cons]
    cases hc : endsWord c with
    | true => simp [hc]
    | false =>
      rw [if_neg Bool.false_ne_true, words, ih, List.takeWhile_cons, List.dropWhile_cons, hc]
      simp

theorem Shows.scan_bare (h : Shows p i text) :
    Scan.scan p.bufferSize (fun j => endsWord (p.buffer j)) i =
      i + (text.takeWhile (!endsWord ·)).length := by
  rw [← List.takeWhile_append_dropWhile (p := (!endsWord ·)) (l := text)] at h
  refine h.scan (fun c hc => ?_) ?_
  · have hpass := List.mem_takeWhile_imp hc
    simpa using hpass
  · cases hdrop : text.dropWhile (!endsWord ·) with
    | nil => rfl
    | cons c rest =>
      have hstop := List.head?_dropWhile_not (!endsWord ·) text
      rw [hdrop, List.head?_cons] at hstop
      simpa using hstop

/-! ## Words -/

theorem Sees.copy (hsee : p.Sees see) (h : Shows p i (w ++ rest)) :
    copyBy see i w.length = .ok (untilNull w) := by
  induction w generalizing i with
  | nil => rfl
  | cons c w ih =>
    have hlt := h.lt
    have hhead : p.buffer i = c := h.head
    rw [List.length_cons, copyBy, hsee i (by omega), hhead]
    by_cases hc : c = 0
    · subst hc
      rfl
    · have hcopy : copyBy see (i + 1) w.length = .ok (untilNull w) := ih h.tail
      have hkeep : untilNull (c :: w) = c :: untilNull w :=
        List.takeWhile_cons_of_pos (bne_iff_ne.2 hc)
      change (if c = 0 then _ else copyBy see (i + 1) w.length >>= _) = _
      rw [if_neg hc, hcopy, hkeep]
      rfl

theorem Sees.wcsncpy (hsee : p.Sees see) (h : Shows p i (w ++ rest)) :
    wcsncpyBy see i w.length = if Short (untilNull w) then .ok (untilNull w)
      else .error (.parser .invalidParameter) := by
  rw [wcsncpyBy, hsee.copy h]
  rfl

theorem untilNull_of_notMem (h : (0 : WChar) ∉ w) : untilNull w = w := by
  refine List.takeWhile_eq_self_iff.2 fun c hc => bne_iff_ne.2 ?_
  rintro rfl
  exact h hc

/-- A word that is short enough is short enough with its terminator. -/
theorem Sees.terminated (hsee : p.Sees see) (h : Shows p i (w ++ rest)) (hnull : (0 : WChar) ∉ w) :
    terminatedBy see i w.length = if Short w then .ok w
      else .error (.parser .invalidParameter) := by
  rw [terminatedBy, hsee.wcsncpy h, untilNull_of_notMem hnull]
  by_cases hshort : Short w
  · rw [if_pos hshort]
    exact if_pos hshort
  · rw [if_neg hshort]
    rfl

/-- The words that are left at an index, which may be the end of the buffer. -/
inductive Left (p : SettingParser) : ℕ → List WString × Ending → Prop
  | text {i : ℕ} {text : WString} (h : Shows p i text) : Left p i (words .gap text)
  | past : Left p p.bufferSize ([], .unclosed)

/-- What `GetTok` makes of the words that are left. -/
inductive Takes (p : SettingParser) (see : See) : List WString × Ending →
    Except Failure (Option WString × ℕ) → Prop
  | null {rest : WString} {j : ℕ} (h : Shows p j rest) :
      Takes p see ([], .null rest) (.ok (none, j))
  | unclosed : Takes p see ([], .unclosed)
      ((see p.bufferSize).map fun _ => (none, p.bufferSize))
  | word {w : WString} {r : List WString × Ending} {j : ℕ} (hshort : Short w) (h : Left p j r) :
      Takes p see (addWord w r) (.ok (some w, j))
  | long {w : WString} {r : List WString × Ending} (hlong : ¬Short w) :
      Takes p see (addWord w r) (.error (.parser .invalidParameter))

/-- Cutting a word off, or failing for its length. -/
theorem Takes.of_copy {r : List WString × Ending} (h : Left p j r) :
    Takes p see (addWord w r)
      ((if Short w then Except.ok w else .error (.parser .invalidParameter)).bind
        fun word => .ok (some word, j)) := by
  by_cases hshort : Short w
  · rw [if_pos hshort]
    exact .word hshort h
  · rw [if_neg hshort]
    exact .long hshort

theorem Sees.scan (hsee : p.Sees see) (f : WChar → Bool) (i : ℕ) :
    scanBy (SettingParser.isChar see f) (p.bufferSize - i) i =
      .ok (Scan.scan p.bufferSize (fun j => f (p.buffer j)) i) :=
  scanBy_eq fun _ _ hj => hsee.isChar f hj

/-- At the first character of a word. -/
theorem Sees.word (hsee : p.Sees see) (h : Shows p i (c :: rest)) (hnull : c ≠ 0) :
    Takes p see
      (if c = quote then words (.quoted []) rest
      else if isSingle c then addWord [c] (words .gap rest)
      else if endsWord (rest.headD 0) then addWord [c] (words .gap rest)
      else words (.bare [c]) rest) (p.wordBy see i) := by
  have hsize := h.size
  rw [List.length_cons] at hsize
  have hread : see i = .ok c := (hsee i (by omega)).trans (congrArg _ h.head)
  rw [wordBy, hread]
  simp only [bind, Except.bind, pure, Except.pure]
  by_cases hquote : c = quote
  · rw [if_pos hquote, if_pos hquote, hsee.scan]
    simp only
    rw [if_neg (by omega : ¬i + 1 = p.bufferSize)]
    rcases h.tail.scan_quoted [] with ⟨hscan, hwords⟩ | ⟨a, rest, rfl, hscan, hwords⟩
    · -- the copy leaves out the last null
      have hcopy := hsee.wcsncpy ((List.append_nil rest).symm ▸ h.tail)
      rw [hwords, hscan, if_neg (lt_irrefl _),
        show p.bufferSize - (i + 1) - 1 = rest.length by omega, hcopy]
      exact Takes.of_copy (w := untilNull rest) (r := ([], .unclosed)) .past
    · have hcopy := hsee.wcsncpy h.tail
      rw [List.length_append, List.length_cons] at hsize
      rw [hwords, hscan, if_pos (by omega),
        show i + 1 + a.length + 1 - (i + 1) - 1 = a.length by omega, hcopy]
      exact Takes.of_copy (w := untilNull a) (.text h.tail.drop.tail)
  · rw [if_neg hquote, if_neg hquote]
    cases hsingle : isSingle c with
    | true =>
      rw [if_pos rfl, if_pos rfl]
      have hcopy := hsee.terminated (w := [c]) h fun hmem => hnull (List.mem_singleton.1 hmem).symm
      rw [show (1 : ℕ) = [c].length by rfl, hcopy]
      exact Takes.of_copy (.text h.tail)
    | false =>
      rw [if_neg Bool.false_ne_true, if_neg Bool.false_ne_true, words_bare, hsee.scan,
        h.tail.scan_bare]
      simp only
      rw [if_neg h.ne_size, show i + 1 + (rest.takeWhile (!endsWord ·)).length - i =
        (c :: rest.takeWhile (!endsWord ·)).length by rw [List.length_cons]; omega]
      have hsplit :
          c :: rest = (c :: rest.takeWhile (!endsWord ·)) ++ rest.dropWhile (!endsWord ·) := by
        rw [List.cons_append, List.takeWhile_append_dropWhile]
      have hplain : (0 : WChar) ∉ c :: rest.takeWhile (!endsWord ·) := by
        intro hmem
        rcases List.mem_cons.1 hmem with heq | hmem
        · exact hnull heq.symm
        · exact absurd (List.mem_takeWhile_imp hmem) (by decide)
      rw [hsplit] at h
      have hleft := h.drop
      rw [List.length_cons] at hleft
      rw [hsee.terminated h hplain, show i + 1 + (rest.takeWhile (!endsWord ·)).length =
        i + ((rest.takeWhile (!endsWord ·)).length + 1) by omega]
      exact Takes.of_copy (w := c :: rest.takeWhile (!endsWord ·)) (.text hleft)

/-- **`GetTok` takes the first word that is left**, and reads behind the buffer
just if the text has ended in a comment or in quotes. -/
theorem Sees.getTok (hsee : p.Sees see) {r : List WString × Ending} (h : Left p i r)
    (hn : p.bufferSize < n + i) : Takes p see r (p.getTokBy see n i) := by
  induction n generalizing i r with
  | zero =>
    cases h with
    | text h =>
      have := h.lt
      omega
    | past => omega
  | succ n ih =>
    cases h with
    | past =>
      have hrun : p.getTokBy see (n + 1) p.bufferSize =
          (see p.bufferSize).map fun _ => (none, p.bufferSize) := by
        rw [getTokBy, Nat.sub_self, scanBy]
        simp only [bind, Except.bind, pure, Except.pure]
        cases see p.bufferSize with
        | error e => rfl
        | ok c => exact if_pos (.inr trivial)
      rw [hrun]
      exact .unclosed
    | @text _ text h =>
      obtain ⟨j, rest, hj, hle, hscan, hwords, hblank⟩ := h.scan_gap
      have hlt := hj.lt
      have hread : see j = .ok (rest.headD 0) :=
        (hsee j (by omega)).trans (congrArg _ hj.head)
      rw [hwords, getTokBy, hsee.scan, hscan]
      simp only [hread, bind, Except.bind, pure, Except.pure]
      cases rest with
      | nil =>
        rw [if_pos (Or.inl List.headD_nil)]
        exact .null hj
      | cons c rest =>
        rw [List.headD_cons] at hblank ⊢
        rw [hsee.isPair hj (by decide), hsee.isPair hj (by decide), hj.head, hj.tail.head,
          List.headD_cons, words, if_neg (by rw [hblank]; exact Bool.false_ne_true)]
        by_cases hnull : c = 0
        · rw [if_pos hnull, if_pos (Or.inl hnull)]
          exact .null hj
        have hgo : ¬(c = 0 ∨ j = p.bufferSize) := fun h => h.elim hnull hj.ne_size
        rw [if_neg hnull, if_neg hgo]
        simp only [Bool.and_eq_true, beq_iff_eq]
        by_cases hline : c = slash ∧ rest.headD 0 = slash
        · rw [if_pos hline, if_pos hline, hsee.scan]
          simp only
          rcases hj.tail.scan_line with ⟨hscan, hwords⟩ | ⟨k, rest, hscan, hle', hk, hrest, hwords⟩
          · rw [hscan, hwords, if_neg (lt_irrefl _)]
            exact ih .past (by omega)
          · rw [hscan, hwords, if_pos hk]
            exact ih (.text hrest) (by omega)
        rw [if_neg hline, if_neg hline]
        by_cases hblock : c = slash ∧ rest.headD 0 = asterisk
        · rw [if_pos hblock, if_pos hblock]
          have hstop (k : ℕ) (hk : j + 1 ≤ k) (hk' : k < p.bufferSize) :
              SettingParser.isPair see asterisk slash k =
                .ok (p.buffer k == asterisk && p.buffer (k + 1) == slash) := by
            obtain ⟨rest', hrest'⟩ := hj.tail.at hk hk'
            exact hsee.isPair hrest' (by decide)
          rw [scanBy_eq hstop]
          simp only
          rcases hj.tail.scan_block with ⟨hscan, hwords⟩ | ⟨k, rest, hscan, hle', hk, hrest, hwords⟩
          · rw [hscan, hwords, if_neg (lt_irrefl _)]
            exact ih .past (by omega)
          · rw [hscan, hwords, if_pos hk]
            exact ih (.text hrest) (by omega)
        rw [if_neg hblock, if_neg hblock]
        exact hsee.word hj hnull

/-! ## The parser itself -/

theorem copyBy_anywhere (p : SettingParser) (i count : ℕ) : copyBy p.anywhere i count =
    .ok (untilNull ((List.range count).map fun j => p.buffer (i + j))) := by
  induction count generalizing i with
  | zero => rfl
  | succ count ih =>
    have hshift : (List.range (count + 1)).map (fun j => p.buffer (i + j)) =
        p.buffer i :: (List.range count).map fun j => p.buffer (i + 1 + j) := by
      rw [List.range_succ_eq_map, List.map_cons, List.map_map]
      exact congrArg _ (List.map_congr_left fun j _ => congrArg p.buffer (by omega))
    rw [hshift, copyBy]
    change (if p.buffer i = 0 then _ else copyBy p.anywhere (i + 1) count >>= _) = _
    by_cases hnull : p.buffer i = 0
    · rw [if_pos hnull, hnull]
      rfl
    · have hkeep (l : WString) : untilNull (p.buffer i :: l) = p.buffer i :: untilNull l :=
        List.takeWhile_cons_of_pos (bne_iff_ne.2 hnull)
      rw [if_neg hnull, ih, hkeep]
      rfl

theorem wcsncpyBy_anywhere (p : SettingParser) (i count : ℕ) :
    wcsncpyBy p.anywhere i count = (p.wcsncpy i count).mapError .parser := by
  have hcopy : p.wcsncpy i count =
      (fun w => if Short w then .ok w else .error .invalidParameter)
        (untilNull ((List.range count).map fun j => p.buffer (i + j))) := rfl
  rw [wcsncpyBy, copyBy_anywhere, hcopy]
  generalize untilNull _ = w
  change (if Short w then _ else _) = (if Short w then _ else _ : Except _ _).mapError _
  by_cases hshort : Short w
  · rw [if_pos hshort, if_pos hshort]
    rfl
  · rw [if_neg hshort, if_neg hshort]
    rfl

/-- The terminator of a word that was copied whole is in its place. -/
theorem terminatedBy_anywhere {count : ℕ} (h : ∀ j, j < count → p.buffer (i + j) ≠ 0) :
    terminatedBy p.anywhere i count = (p.wcsncpy i count).mapError .parser := by
  rw [terminatedBy, wcsncpyBy_anywhere, SettingParser.wcsncpy]
  have hwhole : ((List.range count).map fun j => p.buffer (i + j)).takeWhile (· != 0) =
      (List.range count).map fun j => p.buffer (i + j) := by
    refine List.takeWhile_eq_self_iff.2 fun c hc => bne_iff_ne.2 ?_
    obtain ⟨j, hj, rfl⟩ := List.mem_map.1 hc
    exact h j (List.mem_range.1 hj)
  simp only [hwhole, List.length_map, List.length_range]
  by_cases hshort : count < MAX_WORD_SIZE
  · rw [if_pos hshort]
    exact if_pos hshort
  · rw [if_neg hshort]
    rfl

theorem isPair_anywhere (p : SettingParser) (c d : WChar) (i : ℕ) :
    isPair p.anywhere c d i = .ok (p.buffer i == c && p.buffer (i + 1) == d) := by
  change (if p.buffer i = c then _ else _) = _
  by_cases heq : p.buffer i = c
  · rw [if_pos heq, heq, beq_self_eq_true]
    rfl
  · rw [if_neg heq, beq_eq_false_iff_ne.2 heq]
    rfl

theorem scanBy_anywhere (p : SettingParser) (f : WChar → Bool) (i : ℕ) :
    scanBy (isChar p.anywhere f) (p.bufferSize - i) i =
      .ok (Scan.scan p.bufferSize (fun j => f (p.buffer j)) i) :=
  scanBy_eq fun _ _ _ => rfl

theorem bind_mapError {α β : Type} (r : Except SettingError α) (f : α → β) :
    ((r.mapError Failure.parser).bind fun a => .ok (f a)) = (r.map f).mapError .parser := by
  cases r <;> rfl

/-- With accesses that go anywhere, `GetTok` is what it is. -/
theorem getTokBy_anywhere (p : SettingParser) (n i : ℕ) :
    p.getTokBy p.anywhere n i = (p.getTokFrom n i).mapError .parser := by
  induction n generalizing i with
  | zero => rfl
  | succ n ih =>
    rw [getTokBy, getTokFrom, scanBy_anywhere]
    generalize Scan.scan p.bufferSize (fun j => !isBlank (p.buffer j)) i = i
    simp only [bind, Except.bind, pure, Except.pure, anywhere]
    by_cases hend : p.buffer i = 0 ∨ i = p.bufferSize
    · rw [if_pos hend, if_pos hend]
      rfl
    obtain ⟨hnull, hsize⟩ := not_or.1 hend
    have hpair := isPair_anywhere p
    rw [if_neg hend, if_neg hend]
    rw [hpair, hpair, scanBy_anywhere]
    simp only [Bool.and_eq_true, beq_iff_eq]
    by_cases hline : p.buffer i = slash ∧ p.buffer (i + 1) = slash
    · rw [if_pos hline, if_pos hline]
      exact ih (p.skipLine i)
    rw [if_neg hline, if_neg hline]
    by_cases hblock : p.buffer i = slash ∧ p.buffer (i + 1) = asterisk
    · rw [if_pos hblock, if_pos hblock, scanBy_eq fun j _ _ => hpair asterisk slash j]
      exact ih (p.skipBlock i)
    rw [if_neg hblock, if_neg hblock]
    change p.wordBy p.anywhere i = _
    rw [wordBy, scanBy_anywhere, scanBy_anywhere]
    simp only [bind, Except.bind, pure, Except.pure, anywhere]
    by_cases hquote : p.buffer i = quote
    · rw [if_pos hquote, if_pos hquote]
      by_cases hlast : i + 1 = p.bufferSize
      · rw [if_pos hlast, if_pos hlast]
        rfl
      · rw [if_neg hlast, if_neg hlast, ← bind_mapError, ← wcsncpyBy_anywhere]
        rfl
    rw [if_neg hquote, if_neg hquote]
    by_cases hsingle : isSingle (p.buffer i)
    · rw [if_pos hsingle, if_pos hsingle, ← bind_mapError, ← terminatedBy_anywhere fun j hj => ?_]
      · rfl
      · rwa [Nat.lt_one_iff.1 hj]
    · rw [if_neg hsingle, if_neg hsingle, if_neg hsize, if_neg hsize, ← bind_mapError,
        ← terminatedBy_anywhere fun j hj => ?_]
      · rfl
      · -- the characters that the scan has passed
        cases j with
        | zero => exact hnull
        | succ j =>
          have hpass : endsWord (p.buffer (i + (j + 1))) = false :=
            @Scan.not_stop_of_lt p.bufferSize (i + 1) (fun j => endsWord (p.buffer j)) (i + (j + 1))
              (by omega) (by omega)
          intro heq
          rw [heq] at hpass
          exact absurd hpass (by decide)

theorem nextTokBy_anywhere (p : SettingParser) :
    p.nextTokBy anywhere = p.getTok.mapError .parser := by
  rw [nextTokBy, getTok, getTokBy_anywhere]
  cases p.getTokFrom (p.bufferSize + 1) p.bufferIndex <;> rfl

theorem parseLoopBy_anywhere (n : ℕ) (p : SettingParser) :
    parseLoopBy anywhere n p = (parseLoop n p).mapError .parser := by
  induction n generalizing p with
  | zero => rfl
  | succ n ih =>
    rw [parseLoopBy, parseLoop, nextTokBy_anywhere]
    rcases p.getTok with e | ⟨_ | key, p⟩
    · rfl
    · rfl
    change (if key.headD 0 = closeBrace then _ else _) = Except.mapError _ (ite _ _ _)
    by_cases hclose : key.headD 0 = closeBrace
    · rw [if_pos hclose, if_pos hclose, ih]
    rw [if_neg hclose, if_neg hclose, nextTokBy_anywhere]
    rcases p.getTok with e | ⟨_ | op, p⟩
    · rfl
    · rfl
    change (if op.headD 0 ≠ colon then _ else _) = Except.mapError _ (ite _ _ _)
    by_cases hcolon : op.headD 0 ≠ colon
    · rw [if_pos hcolon, if_pos hcolon]
      rfl
    rw [if_neg hcolon, if_neg hcolon, nextTokBy_anywhere]
    rcases p.getTok with e | ⟨_ | value, p⟩
    · rfl
    · rfl
    change Except.bind (Except.mapError _ (ite _ _ _)) _ = _
    simp only
    generalize (if value.headD 0 = openBrace then p.openGroup key else p.store key value) = r
    cases r with
    | error e => rfl
    | ok p => exact ih p

/-- **With accesses that go anywhere, it is the parser.** -/
theorem parseBy_anywhere (p : SettingParser) :
    p.parseBy anywhere = p.parse.mapError .parser :=
  parseLoopBy_anywhere _ p

end SettingParser

end NetLib
