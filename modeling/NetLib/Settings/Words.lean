import NetLib.Settings.Model
/-!
# The words of a text

What a settings text says word by word, whatever the text is, and what its
words say taken as keys, colons and values. A text may end in the middle of a
comment or of a quoted word; what is behind a null is not looked at.
-/

namespace NetLib

namespace SettingParser

open WChar

/-- How the words of a text come to an end. -/
inductive Ending
  /-- At a null, which is the first character of `rest`, or at the end of the
  text. -/
  | null (rest : WString)
  /-- In a comment, or in quotes. -/
  | unclosed
  deriving DecidableEq

/-- Where in a text a reader is. -/
inductive Mode
  | gap
  | line
  | block
  /-- Before the slash that ends a block comment. -/
  | closing
  | quoted (w : WString)
  | bare (w : WString)

/-- A null ends a word in quotes, though not the quotes. -/
def untilNull (w : WString) : WString := w.takeWhile (· != 0)

def addWord (w : WString) (r : List WString × Ending) : List WString × Ending := (w :: r.1, r.2)

/-- The words of a text, from where the reader is. -/
def words : Mode → WString → List WString × Ending
  | .gap, [] => ([], .null [])
  | .gap, c :: rest =>
    if isBlank c then words .gap rest
    else if c = 0 then ([], .null (c :: rest))
    else if c = slash ∧ rest.headD 0 = slash then words .line rest
    else if c = slash ∧ rest.headD 0 = asterisk then words .block rest
    else if c = quote then words (.quoted []) rest
    else if isSingle c then addWord [c] (words .gap rest)
    else if endsWord (rest.headD 0) then addWord [c] (words .gap rest)
    else words (.bare [c]) rest
  | .line, [] => ([], .unclosed)
  | .line, c :: rest => if c = lineFeed then words .gap rest else words .line rest
  | .block, [] => ([], .unclosed)
  | .block, c :: rest =>
    if c = asterisk ∧ rest.headD 0 = slash then words .closing rest else words .block rest
  | .closing, [] => ([], .null [])
  | .closing, _ :: rest => words .gap rest
  | .quoted w, [] => ([untilNull w], .unclosed)
  | .quoted w, c :: rest =>
    if c = quote then addWord (untilNull w) (words .gap rest) else words (.quoted (w ++ [c])) rest
  | .bare w, [] => ([w], .null [])
  | .bare w, c :: rest =>
    if endsWord (rest.headD 0) then addWord (w ++ [c]) (words .gap rest)
    else words (.bare (w ++ [c])) rest

/-- No null stands outside the comments and quotes of the text, where it would
end it. -/
def ReadsThrough (text : WString) : Prop :=
  (words .gap text).2 = .null [] ∨ (words .gap text).2 = .unclosed

instance (text : WString) : Decidable (ReadsThrough text) := inferInstanceAs (Decidable (_ ∨ _))

/-! ## What the words say -/

/-- The groups, each with its settings. -/
abbrev Groups := List (WString × List (WString × WString))

def Short (w : WString) : Prop := w.length < MAX_WORD_SIZE

instance (w : WString) : Decidable (Short w) := inferInstanceAs (Decidable (_ < _))

/-- Taken as settings, the words fit where they are put: they are short, there
is a group for every setting, and no group too many; and if the reader comes to
the end of the words, `closed` holds. Behind an operator that is no colon
nothing is read. -/
def Sound (closed : Prop) : ℕ → List WString → Prop
  | _, [] => closed
  | groups, key :: l =>
    Short key ∧
      if key.headD 0 = closeBrace then Sound closed groups l
      else match l with
        | [] => closed
        | op :: l => Short op ∧ (op.headD 0 = colon → match l with
          | [] => closed
          | value :: l => Short value ∧
            if value.headD 0 = openBrace then groups < MAXGROUPSIZE ∧ Sound closed (groups + 1) l
            else 0 < groups ∧ Sound closed groups l)

/-- A setting is put into the group that was opened last. -/
def Groups.insert (done : Groups) (key value : WString) : Groups :=
  done.modify (done.length - 1) fun g => (g.1, SettingParser.insert g.2 key value)

/-- What the words add to the groups; nothing, if an operator is no colon. -/
def enter : Groups → List WString → Option Groups
  | done, [] => some done
  | done, key :: l =>
    if key.headD 0 = closeBrace then enter done l
    else match l with
      | [] => some done
      | op :: l => if op.headD 0 ≠ colon then none else match l with
        | [] => some done
        | value :: l => enter
          (if value.headD 0 = openBrace then done ++ [(key, [])] else done.insert key value) l

/-- What the groups answer: the first group of the name counts. -/
def Groups.answer (done : Groups) (group key : WString) : Option WString :=
  (done.find? fun g => g.1 == group).bind fun g => g.2.lookup key

/-- The words are no more than the characters. -/
theorem length_words (m : Mode) (text : WString) : (words m text).1.length ≤ text.length + 1 := by
  fun_induction words m text <;> simp only [addWord, List.length_cons, List.length_nil] at * <;>
    omega

end SettingParser

end NetLib
