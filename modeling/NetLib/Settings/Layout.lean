import NetLib.Settings.Model
/-!
# Settings files

What a settings table is, and which texts write it: its tokens in their
order, with whitespace and comments between them.
-/

namespace NetLib

namespace SettingParser

open WChar

/-- A value as it is written. -/
inductive Value
  | bare (w : WString)
  | quoted (w : WString)

/-- The value that is meant. -/
def Value.text : Value → WString
  | .bare w | .quoted w => w

structure Group where
  name : WString
  pairs : List (WString × Value)

/-- A word without quotes. -/
structure IsBare (w : WString) : Prop where
  nonempty : w ≠ []
  length : w.length < MAX_WORD_SIZE
  /-- No whitespace, null, byte order mark, quote or delimiter. -/
  plain : ∀ c ∈ w, c ∉ [space, tab, carriageReturn, lineFeed, 0, byteOrderMark, quote, colon,
    openBrace, closeBrace]
  noLine : ¬ [slash, slash] <+: w
  noBlock : ¬ [slash, asterisk] <+: w

/-- What may stand between quotes. -/
structure IsQuoted (w : WString) : Prop where
  length : w.length < MAX_WORD_SIZE
  plain : ∀ c ∈ w, c ∉ [quote, 0]
  noBrace : w.head? ≠ some openBrace

def Value.Ok : Value → Prop
  | .bare w => IsBare w
  | .quoted w => IsQuoted w

structure Group.Ok (g : Group) : Prop where
  name : IsBare g.name
  noDot : dot ∉ g.name
  keys : ∀ kv ∈ g.pairs, IsBare kv.1
  values : ∀ kv ∈ g.pairs, kv.2.Ok
  distinct : (g.pairs.map Prod.fst).Nodup

structure TableOk (table : List Group) : Prop where
  groups : ∀ g ∈ table, g.Ok
  length : table.length ≤ MAXGROUPSIZE
  distinct : (table.map Group.name).Nodup

/-! ## Texts -/

inductive Token
  | value (v : Value)
  | delimiter (c : WChar)

def Token.text : Token → WString
  | .value (.bare w) => w
  | .value (.quoted w) => quote :: w ++ [quote]
  | .delimiter c => [c]

/-- `key : value` -/
def pairTokens (kv : WString × Value) : List Token :=
  [.value (.bare kv.1), .delimiter colon, .value kv.2]

/-- `name : { key : value ... }` -/
def Group.tokens (g : Group) : List Token :=
  [.value (.bare g.name), .delimiter colon, .delimiter openBrace] ++ g.pairs.flatMap pairTokens ++
    [.delimiter closeBrace]

def tokens (table : List Group) : List Token := table.flatMap Group.tokens

/-- A whitespace character or a comment. -/
inductive Piece
  | blank (c : WChar)
  | line (comment : WString)
  | block (comment : WString)

def Piece.text : Piece → WString
  | .blank c => [c]
  | .line comment => slash :: slash :: comment ++ [lineFeed]
  | .block comment => slash :: asterisk :: comment ++ [asterisk, slash]

def whitespace : List WChar := [space, tab, carriageReturn, lineFeed]

/-- The comments end where their text says, and `Block` is true of the block
comments. -/
def Piece.Ok (Block : WString → Prop) : Piece → Prop
  | .blank c => c ∈ whitespace
  | .line comment => lineFeed ∉ comment
  | .block comment => Block comment

/-- What may follow a word without quotes: whitespace, a delimiter, or the end
of the text. A comment needs whitespace before it here. -/
def EndsBare (rest : WString) : Prop :=
  ∀ c ∈ rest.head?, c ∈ whitespace ∨ isSingle c = true

/-- The text after the last token: whitespace and comments, the last of which
may be a line comment that ends with the text. -/
inductive Trailing : WString → Prop
  | nil : Trailing []
  | comment {comment : WString} (h : lineFeed ∉ comment) : Trailing (slash :: slash :: comment)

/-- `Layout Block ts text`: the text writes the tokens. -/
inductive Layout (Block : WString → Prop) : List Token → WString → Prop
  | done {pieces : List Piece} {rest : WString} (hpieces : ∀ p ∈ pieces, p.Ok Block)
      (hrest : Trailing rest) : Layout Block [] (pieces.flatMap Piece.text ++ rest)
  | token {pieces : List Piece} {t : Token} {ts : List Token} {rest : WString}
      (hpieces : ∀ p ∈ pieces, p.Ok Block) (hbare : ∀ w, t = .value (.bare w) → EndsBare rest)
      (hrest : Layout Block ts rest) :
      Layout Block (t :: ts) (pieces.flatMap Piece.text ++ (t.text ++ rest))

/-- A block comment goes up to the first `*/` after its `/*`. -/
def IsBlock (comment : WString) : Prop := ¬ [asterisk, slash] <:+: comment

/-- A block comment whose text does not start with a slash. -/
def IsPlainBlock (comment : WString) : Prop := IsBlock comment ∧ comment.head? ≠ some slash

/-! ## What a parser says -/

/-- The table has the value for the key. -/
def Written (table : List Group) (group key : WString) (value : Value) : Prop :=
  ∃ g ∈ table, g.name = group ∧ (key, value) ∈ g.pairs

/-- The parser answers what is written, and nothing else. -/
structure Answers (p : SettingParser) (table : List Group) : Prop where
  written : ∀ group key value, Written table group key value →
    p.getValueImpl (group ++ dot :: key) = .ok (some value.text)
  unwritten : ∀ group key, dot ∉ group → (∀ value, ¬ Written table group key value) →
    p.getValueImpl (group ++ dot :: key) = .ok none

/-- `Parse` succeeds, and `GetValueImpl` answers what is written. -/
def RoundTrips (table : List Group) (text : WString) (behind : ℕ → WChar) : Prop :=
  ∃ p, (load text behind).parse = .ok p ∧ Answers p table

end SettingParser

end NetLib
