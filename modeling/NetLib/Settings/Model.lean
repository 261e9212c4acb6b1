import Mathlib.Data.Int.Notation
import NetLib.Library.Scan
import NetLib.Types
/-!
# `SettingParser`

A settings file is a sequence of groups of pairs of a key and a value:

    group : { key : value ... }

`GetTok` cuts the text into words by raw indices into a buffer, `Parse` goes
by the first character of a word.
-/

namespace NetLib

namespace WChar

def tab : WChar := 0x09
def lineFeed : WChar := 0x0A
def carriageReturn : WChar := 0x0D
def space : WChar := 0x20
def quote : WChar := 0x22
def asterisk : WChar := 0x2A
def dot : WChar := 0x2E
def slash : WChar := 0x2F
def colon : WChar := 0x3A
def openBrace : WChar := 0x7B
def closeBrace : WChar := 0x7D
def byteOrderMark : WChar := 0xFEFF

end WChar

open WChar

/-- How parsing fails. -/
inductive SettingError
  /-- `wcsncpy_s` was given a word that does not fit. -/
  | invalidParameter
  /-- "SettingParser::Parsing error. expected ':',but found ..." -/
  | expectedColon (found : WChar)
  /-- An index outside of `_groupsName` and `_settingsContainer`, or a name
  without a group. -/
  | outOfRange
  /-- Not a failure of the code: the recursion of the model has ended. -/
  | outOfFuel
  deriving DecidableEq

structure SettingParser where
  /-- What `_buffer` points to. The text ends with a null; what is behind it is
  not the parser's. -/
  buffer : ℕ → WChar
  bufferIndex : ℕ
  bufferSize : ℕ
  groupIndex : ℤ
  groupsName : List WString
  settingsContainer : List (List (WString × WString))

namespace SettingParser

def MAX_WORD_SIZE : ℕ := 100
def MAXGROUPSIZE : ℕ := 10

/-- The parser after `LoadSetting`. -/
def load (text : WString) (behind : ℕ → WChar) : SettingParser where
  buffer i := if i = text.length then 0 else (text[i]?).getD (behind i)
  bufferIndex := 0
  bufferSize := text.length + 1
  groupIndex := -1
  groupsName := List.replicate MAXGROUPSIZE []
  settingsContainer := List.replicate MAXGROUPSIZE []

/-- What `GetTok` skips before a word. -/
def isBlank (c : WChar) : Bool :=
  c == byteOrderMark || c == lineFeed || c == space || c == tab || c == carriageReturn

/-- What ends a long word. -/
def endsWord (c : WChar) : Bool :=
  c == lineFeed || c == space || c == tab || c == carriageReturn || c == 0 || c == colon ||
    c == openBrace || c == closeBrace

/-- A word of one character. -/
def isSingle (c : WChar) : Bool := c == colon || c == openBrace || c == closeBrace

variable (p : SettingParser)

/-- `wcsncpy_s(word, MAX_WORD_SIZE, &_buffer[start], count)` -/
def wcsncpy (start count : ℕ) : Except SettingError WString :=
  let word := ((List.range count).map fun j => p.buffer (start + j)).takeWhile (· != 0)
  if word.length < MAX_WORD_SIZE then .ok word else .error .invalidParameter

/-- The end of the line comment at `i`. -/
def skipLine (i : ℕ) : ℕ :=
  let wordEnd := Scan.scan p.bufferSize (fun j => p.buffer j == lineFeed) (i + 1)
  if wordEnd < p.bufferSize then wordEnd + 1 else wordEnd

/-- The end of the block comment at `i`. -/
def skipBlock (i : ℕ) : ℕ :=
  let wordEnd := Scan.scan p.bufferSize
    (fun j => p.buffer j == asterisk && p.buffer (j + 1) == slash) (i + 1)
  if wordEnd < p.bufferSize then wordEnd + 2 else wordEnd

/-- `GetTok` from the index `start` on: the word, if there is one, and the new
index. -/
def getTokFrom : ℕ → ℕ → Except SettingError (Option WString × ℕ)
  | 0, _ => .error .outOfFuel
  | fuel + 1, start =>
    let i := Scan.scan p.bufferSize (fun j => !isBlank (p.buffer j)) start
    if p.buffer i = 0 ∨ i = p.bufferSize then .ok (none, i)
    else if p.buffer i = slash ∧ p.buffer (i + 1) = slash then getTokFrom fuel (p.skipLine i)
    else if p.buffer i = slash ∧ p.buffer (i + 1) = asterisk then getTokFrom fuel (p.skipBlock i)
    else if p.buffer i = quote then
      let close := Scan.scan p.bufferSize (fun j => p.buffer j == quote) (i + 1)
      let wordEnd := if close < p.bufferSize then close + 1 else close
      if i + 1 = p.bufferSize then .ok (none, i + 1)
      else (p.wcsncpy (i + 1) (wordEnd - (i + 1) - 1)).map fun word => (some word, wordEnd)
    else if isSingle (p.buffer i) then (p.wcsncpy i 1).map fun word => (some word, i + 1)
    else
      let wordEnd := Scan.scan p.bufferSize (fun j => endsWord (p.buffer j)) (i + 1)
      if i = p.bufferSize then .ok (none, i)
      else (p.wcsncpy i (wordEnd - i)).map fun word => (some word, wordEnd)

/-- A comment takes more than one character, so `bufferSize` calls are enough. -/
def getTok : Except SettingError (Option WString × SettingParser) :=
  (p.getTokFrom (p.bufferSize + 1) p.bufferIndex).map fun r => (r.1, { p with bufferIndex := r.2 })

/-- `insert` of a `HashMap`: a key that is there keeps its value. -/
def insert (settings : List (WString × WString)) (key value : WString) :
    List (WString × WString) :=
  if (settings.lookup key).isSome then settings else settings ++ [(key, value)]

/-- `_groupIndex++; _groupsName[_groupIndex] = key;` -/
def openGroup (key : WString) : Except SettingError SettingParser :=
  if 0 ≤ p.groupIndex + 1 ∧ p.groupIndex + 1 < MAXGROUPSIZE then
    .ok { p with groupIndex := p.groupIndex + 1,
                 groupsName := p.groupsName.set (p.groupIndex + 1).toNat key }
  else .error .outOfRange

/-- `_settingsContainer[_groupIndex].insert({key, value});` -/
def store (key value : WString) : Except SettingError SettingParser :=
  if 0 ≤ p.groupIndex ∧ p.groupIndex < MAXGROUPSIZE then
    .ok { p with settingsContainer :=
      p.settingsContainer.modify p.groupIndex.toNat fun settings => insert settings key value }
  else .error .outOfRange

/-- The loop of `Parse`. -/
def parseLoop : ℕ → SettingParser → Except SettingError SettingParser
  | 0, _ => .error .outOfFuel
  | fuel + 1, p =>
    match p.getTok with
    | .error e => .error e
    | .ok (none, p) => .ok p
    | .ok (some key, p) =>
      if key.headD 0 = closeBrace then parseLoop fuel p
      else match p.getTok with
      | .error e => .error e
      | .ok (none, p) => .ok p
      | .ok (some op, p) =>
        if op.headD 0 ≠ colon then .error (.expectedColon (op.headD 0))
        else match p.getTok with
        | .error e => .error e
        | .ok (none, p) => .ok p
        | .ok (some value, p) =>
          match if value.headD 0 = openBrace then p.openGroup key else p.store key value with
          | .error e => .error e
          | .ok p => parseLoop fuel p

/-- Every round of the loop takes at least one character. -/
def parse : Except SettingError SettingParser := parseLoop (p.bufferSize + 1) p

/-- The group of a name ends at the first dot. -/
def getValueImpl (name : WString) : Except SettingError (Option WString) :=
  let group := name.takeWhile (· != dot)
  let typeName := (name.dropWhile (· != dot)).drop 1
  if dot ∈ name then
    match (p.groupsName.zip p.settingsContainer).find? fun g => g.1 == group with
    | some g => .ok (g.2.lookup typeName)
    | none => .ok none
  else .error .outOfRange

end SettingParser

end NetLib
