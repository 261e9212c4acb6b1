import Mathlib.Data.Nat.Digits.Lemmas
import NetLib.Settings.Again
import NetLib.Subnet.Match
/-!
# `LoadSubnets`

How `SubnetManager` gets its two lists out of `subnetSetting.txt`. In the groups
`LAN` and `WAN` the file has the number of entries under `len`, and for each
index a prefix length under `mask_` and an address under `ip_`. The constructor
calls `Init`, and `LoadSubnets` calls it again.
-/

namespace NetLib

namespace SubnetManager

/-- The characters of a literal `L".."`. -/
def wide (s : List Char) : WString := s.map fun c => BitVec.ofNat 16 c.toNat

def LAN : WString := wide ['L', 'A', 'N']
def WAN : WString := wide ['W', 'A', 'N']
def len : WString := wide ['l', 'e', 'n']
def mask_ : WString := wide ['m', 'a', 's', 'k', '_']
def ip_ : WString := wide ['i', 'p', '_']

end SubnetManager

open SettingParser SubnetManager WChar

/-! ## Numbers as text -/

/-- Why `std::stoi` throws. -/
inductive StoiError
  | invalid_argument
  | out_of_range
  deriving DecidableEq

/-- What `wcstol` skips: a space, and tab to carriage return. -/
def isSpace (c : WChar) : Bool :=
  c == space || (tab.toNat ≤ c.toNat && c.toNat ≤ carriageReturn.toNat)

def isDigit (c : WChar) : Bool := 0x30 ≤ c.toNat && c.toNat ≤ 0x39

/-- The number that digits write. -/
def ofDigits (w : WString) : ℕ := Nat.ofDigits 10 (w.reverse.map fun c => c.toNat - 0x30)

/-- `std::stoi`; what is behind the digits is ignored. -/
def stoi (w : WString) : Except StoiError ℤ :=
  let w := w.dropWhile isSpace
  let digits := (if w.head? = some 0x2D ∨ w.head? = some 0x2B then w.tail else w).takeWhile isDigit
  let n : ℤ := if w.head? = some 0x2D then -ofDigits digits else ofDigits digits
  if digits = [] then .error .invalid_argument
  else if -2 ^ 31 ≤ n ∧ n < 2 ^ 31 then .ok n else .error .out_of_range

/-- `std::to_wstring` of an index. -/
def to_wstring (n : ℕ) : WString :=
  if n = 0 then [0x30] else (Nat.digits 10 n).reverse.map fun d => BitVec.ofNat 16 (0x30 + d)

/-! ## `GetValue` and `LoadSubnetGroup` -/

/-- How the constructor of `SubnetManager` fails. -/
inductive LoadError
  | init (f : Failure)
  | getValue (e : SettingError)
  | stoi (e : StoiError)
  deriving DecidableEq

/-- `GetValue` of a `String`: what is not there is the default value, which is
empty. -/
def SettingParser.getValue (p : SettingParser) (name : WString) : Except LoadError WString :=
  ((p.getValueImpl name).mapError .getValue).map (·.getD [])

/-- `GetValue` of an integral type, before the value is cut to the type. -/
def SettingParser.getInt (p : SettingParser) (name : WString) : Except LoadError ℤ := do
  (stoi (← p.getValue name)).mapError .stoi

section Load

variable (inetPton : WString → Option IN_ADDR) (sort : List SubnetInfo → List SubnetInfo)

/-- `Socket::Ip2Address`: an address that `InetPtonW` does not understand is
`0.0.0.0`. -/
def Ip2Address (ip : WString) : IN_ADDR := (inetPton ip).getD 0

/-- The body of the loop. -/
def loadSubnet (p : SettingParser) (group : WString) (i : ℕ) : Except LoadError SubnetInfo := do
  let subnet ← p.getInt (group ++ mask_ ++ to_wstring i)
  let ip ← p.getValue (group ++ ip_ ++ to_wstring i)
  return ⟨BitVec.ofInt 8 subnet, Ip2Address inetPton ip, ip⟩

/-- `LoadSubnetGroup` -/
def loadSubnetGroup (p : SettingParser) (group : WString) : Except LoadError (List SubnetInfo) := do
  let group := group ++ [dot]
  let len ← p.getInt (group ++ len)
  return sort (← (List.range len.toNat).mapM (loadSubnet inetPton p group))

/-- `SubnetManager::SubnetManager` with `LoadSubnets`; `first` and `second` are
behind the two buffers. -/
def SubnetManager.construct (text : WString) (first second : ℕ → WChar) :
    Except LoadError SubnetManager := do
  let p ← ((load text first).parseBy inside).mapError .init
  let p ← ((p.reload text second).parseBy inside).mapError .init
  let lanSubnet ← loadSubnetGroup inetPton sort p LAN
  let wanSubnet ← loadSubnetGroup inetPton sort p WAN
  return ⟨lanSubnet, wanSubnet⟩

end Load

/-! ## What is written -/

/-- An entry as a file has it. -/
structure SubnetEntry where
  mask : ℕ
  ip : SettingParser.Value

namespace SubnetEntry

structure Ok (e : SubnetEntry) : Prop where
  mask : e.mask ≤ 32
  ip : e.ip.Ok

/-- The pairs of the entry with the index `i`. -/
def pairs (e : SubnetEntry) (i : ℕ) : List (WString × SettingParser.Value) :=
  [(mask_ ++ to_wstring i, .bare (to_wstring e.mask)), (ip_ ++ to_wstring i, e.ip)]

/-- The subnet that is meant. -/
def info (inetPton : WString → Option IN_ADDR) (e : SubnetEntry) : SubnetInfo :=
  ⟨BitVec.ofNat 8 e.mask, Ip2Address inetPton e.ip.text, e.ip.text⟩

end SubnetEntry

/-- The group of a list of entries. -/
def writeGroup (name : WString) (entries : List SubnetEntry) : Group :=
  ⟨name, (len, .bare (to_wstring entries.length)) ::
    entries.zipIdx.flatMap fun e => e.1.pairs e.2⟩

/-- A list of entries that a group may have. -/
structure EntriesOk (entries : List SubnetEntry) : Prop where
  each : ∀ e ∈ entries, e.Ok
  length : entries.length < 2 ^ 31

/-! ## Digits -/

theorem isDigit_digit {d : ℕ} (h : d < 10) : isDigit (BitVec.ofNat 16 (0x30 + d)) = true := by
  have hd : (BitVec.ofNat 16 (0x30 + d)).toNat = 0x30 + d := by
    rw [BitVec.toNat_ofNat]
    omega
  rw [isDigit, hd, Bool.and_eq_true, decide_eq_true_eq, decide_eq_true_eq]
  omega

theorem to_wstring_eq (n : ℕ) : ∃ l : List ℕ, (∀ d ∈ l, d < 10) ∧ Nat.ofDigits 10 l = n ∧ l ≠ [] ∧
    (l.length ≤ 1 ∨ l = Nat.digits 10 n) ∧
    to_wstring n = l.reverse.map fun d => BitVec.ofNat 16 (0x30 + d) := by
  by_cases hn : n = 0
  · subst hn
    exact ⟨[0], by simp, rfl, by simp, .inl le_rfl, rfl⟩
  · exact ⟨Nat.digits 10 n, fun d hd => Nat.digits_lt_base (by decide) hd,
      Nat.ofDigits_digits 10 n, Nat.digits_ne_nil_iff_ne_zero.2 hn, .inr rfl, if_neg hn⟩

theorem isDigit_of_mem {n : ℕ} {c : WChar} (h : c ∈ to_wstring n) : isDigit c = true := by
  obtain ⟨l, hlt, -, -, -, heq⟩ := to_wstring_eq n
  rw [heq] at h
  obtain ⟨d, hd, rfl⟩ := List.mem_map.1 h
  exact isDigit_digit (hlt d (List.mem_reverse.1 hd))

theorem to_wstring_ne_nil (n : ℕ) : to_wstring n ≠ [] := by
  obtain ⟨l, -, -, hne, -, heq⟩ := to_wstring_eq n
  rw [heq]
  simpa using hne

theorem ofDigits_to_wstring (n : ℕ) : ofDigits (to_wstring n) = n := by
  obtain ⟨l, hlt, hvalue, -, -, heq⟩ := to_wstring_eq n
  have hmap : (to_wstring n).reverse.map (fun c => c.toNat - 0x30) = l := by
    rw [heq, ← List.map_reverse, List.reverse_reverse, List.map_map]
    refine (List.map_congr_left fun d hd => ?_).trans (List.map_id l)
    have := hlt d hd
    simp only [Function.comp, BitVec.toNat_ofNat, id]
    omega
  rw [ofDigits, hmap, hvalue]

theorem to_wstring_injective {i j : ℕ} (h : to_wstring i = to_wstring j) : i = j := by
  rw [← ofDigits_to_wstring i, h, ofDigits_to_wstring]

theorem length_to_wstring {n k : ℕ} (hk : 0 < k) (hn : n < 10 ^ k) : (to_wstring n).length ≤ k := by
  obtain ⟨l, -, -, -, hl, heq⟩ := to_wstring_eq n
  rw [heq, List.length_map, List.length_reverse]
  rcases hl with hl | rfl
  · omega
  · exact (Nat.digits_length_le_iff (by decide) n).2 hn

theorem digit_bounds {c : WChar} (h : isDigit c = true) : 0x30 ≤ c.toNat ∧ c.toNat ≤ 0x39 := by
  simpa [isDigit] using h

theorem isSpace_of_digit {c : WChar} (h : isDigit c = true) : isSpace c = false := by
  have := digit_bounds h
  simp only [isSpace, Bool.or_eq_false_iff, beq_eq_false_iff_ne, Bool.and_eq_false_iff,
    decide_eq_false_iff_not]
  refine ⟨fun heq => ?_, .inr ?_⟩
  · rw [heq] at this
    exact absurd this.1 (by decide)
  · have : carriageReturn.toNat = 0x0D := rfl
    omega

/-- **`stoi` reads what `to_wstring` writes.** -/
theorem stoi_to_wstring {n : ℕ} (h : n < 2 ^ 31) : stoi (to_wstring n) = .ok n := by
  have hdigits : ∀ c ∈ to_wstring n, isDigit c = true := fun c hc => isDigit_of_mem hc
  obtain ⟨c, w, hw⟩ := List.exists_cons_of_ne_nil (to_wstring_ne_nil n)
  have hc : isDigit c = true := hdigits c (hw ▸ List.mem_cons_self)
  have hbounds := digit_bounds hc
  have hdrop : (to_wstring n).dropWhile isSpace = to_wstring n := by
    rw [hw, List.dropWhile_cons_of_neg (by simp [isSpace_of_digit hc])]
  have hhead (d : WChar) (hd : d.toNat < 0x30) : (to_wstring n).head? ≠ some d := by
    rw [hw, List.head?_cons]
    intro heq
    obtain rfl := Option.some.inj heq
    omega
  have hminus := hhead 0x2D (by decide)
  have hplus := hhead 0x2B (by decide)
  have htake : (to_wstring n).takeWhile isDigit = to_wstring n :=
    List.takeWhile_eq_self_iff.2 hdigits
  simp only [stoi, hdrop, if_neg (not_or.2 ⟨hminus, hplus⟩), htake, if_neg hminus,
    if_neg (to_wstring_ne_nil n), ofDigits_to_wstring]
  exact if_pos (by omega)

/-! ## `Init`, twice -/

section Init

variable {table : List Group} {text : WString} {p : SettingParser}

theorem parse_of_layout (first : ℕ → WChar) (hok : TableOk table)
    (hlayout : Layout IsPlainBlock (tokens table) text) :
    ∃ q, (load text first).parse = .ok q ∧ Filled q (table.map Group.entry) := by
  have hlength := length_le_of_layout hlayout fun t ht => hok.token ht
  obtain ⟨d, hd⟩ := Nat.exists_eq_add_of_le hlength
  have hstart : Filled (load text first) [] := ⟨rfl, rfl, rfl⟩
  obtain ⟨q, hq, hfilled⟩ := parseLoop_table table (d + 1) (by simpa using hok.length) hok.groups
    hstart ⟨text, hlayout, shows_load text first⟩
  refine ⟨q, ?_, hfilled⟩
  rw [← hq, parse]
  congr 1
  change text.length + 1 + 1 = _
  omega

/-- The first `Init` reads inside of its buffer if the text does not end in a
comment or in quotes. -/
theorem parseBy_inside_of_parse {first : ℕ → WChar} (second : ℕ → WChar) {q : SettingParser}
    (h : (load text first).parse = .ok q)
    (hend : (words .gap text).2 ≠ .unclosed) :
    ∃ p, (load text second).parseBy inside = .ok p ∧ Ran p text := by
  have hanywhere : Parsed True (text.length + 1) [] (words .gap text).1 (words .gap text).2
      ((load text first).parseBy anywhere) :=
    parsed_load accesses_anywhere fun p => iff_of_true trivial fun _ => ⟨_, rfl⟩
  have hinside : Parsed ((words .gap text).2 ≠ .unclosed) (text.length + 1) []
      (words .gap text).1 (words .gap text).2 ((load text second).parseBy inside) :=
    parsed_load accesses_inside fun p => inside_bufferSize p
  rw [parseBy_anywhere, h] at hanywhere
  rw [eq_true hend] at hinside
  cases hanywhere with
  | table hsound henter =>
    generalize (load text second).parseBy inside = r at hinside
    cases hinside with
    | @table p table _ henter' hle hfilled hstop hsize =>
      have hgroups : groupsOf text = table := congrArg (·.getD []) henter'
      refine ⟨p, rfl, hgroups ▸ hfilled, hgroups ▸ hle, ?_⟩
      rw [stopOf]
      cases hnull : (words .gap text).2 with
      | null rest =>
        rw [hnull] at hstop
        have := Shows.size hstop
        simp only
        omega
      | unclosed => exact absurd hnull hend
    | thrown _ hnone =>
      rw [henter] at hnone
      cases hnone
    | failed hno => exact absurd hsound hno

/-- The second `Init` reads nothing, and takes nothing away. -/
theorem SettingParser.Ran.again (h : Ran p text) (second : ℕ → WChar)
    (hend : (words .gap text).2 ≠ .unclosed) :
    ∃ r, (p.reload text second).parseBy inside = .ok r ∧
      ∀ name, r.getValueImpl name = p.getValueImpl name := by
  obtain ⟨hle, rest, hwords⟩ := words_drop_stopOf hend
  have hparsed := parsed_reload second h hle
  rw [hwords] at hparsed
  generalize (p.reload text second).parseBy inside = r at hparsed
  cases hparsed with
  | @table r table _ henter _ hfilled =>
    obtain rfl := Option.some.inj henter
    exact ⟨r, rfl, (getValueImpl_eq_iff hfilled h.filled).2 fun _ _ _ => rfl⟩
  | thrown _ hnone => cases hnone
  | failed hno => exact absurd (by simp [Sound]) hno

/-- **What `LoadSubnets` finds in the parser**: what is written. -/
theorem answers_of_init (first second : ℕ → WChar) (hok : TableOk table)
    (hlayout : Layout IsPlainBlock (tokens table) text)
    (hend : (words .gap text).2 ≠ .unclosed) :
    ∃ p r, (load text first).parseBy inside = .ok p ∧
      (p.reload text second).parseBy inside = .ok r ∧ SettingParser.Answers r table := by
  obtain ⟨q, hq, hfilled⟩ := parse_of_layout first hok hlayout
  obtain ⟨p, hp, hran⟩ := parseBy_inside_of_parse first hq hend
  obtain ⟨r, hr, hsame⟩ := hran.again second hend
  have hanswers := hfilled.answers hok
  have heq (name : WString) : r.getValueImpl name = q.getValueImpl name := by
    rw [hsame]
    exact (getValueImpl_eq_iff hran.filled (ran_of_parse hq).filled).2 (fun _ _ _ => rfl) name
  refine ⟨p, r, hp, hr, ⟨fun group key value h => ?_, fun group key hdot h => ?_⟩⟩
  · rw [heq]
    exact hanswers.written group key value h
  · rw [heq]
    exact hanswers.unwritten group key hdot h

/-- Words that say a table are read to their end. -/
theorem closed_of_enter {closed : Prop} {done table : Groups} {l : List WString} {n : ℕ}
    (h : Sound closed n l) (henter : enter done l = some table) : closed := by
  fun_induction enter done l generalizing n with
  | case1 done => exact h
  | case2 done key l hclose ih => exact ih ((sound_close hclose).1 h).2 henter
  | case3 done key hclose => exact ((sound_key hclose).1 h).2
  | case4 => cases henter
  | case5 done key hclose op hcolon => exact ((sound_op hclose).1 h).2.2 (not_not.1 hcolon)
  | case6 done key hclose op hcolon value l ih =>
    have hvalue := (((sound_value hclose).1 h).2.2 (not_not.1 hcolon)).2
    split at hvalue
    · exact ih hvalue.2 henter
    · exact ih hvalue.2 henter

/-- A text that ends in a comment or in quotes is read past its end. -/
theorem init_of_unclosed (first : ℕ → WChar) (hok : TableOk table)
    (hlayout : Layout IsPlainBlock (tokens table) text)
    (hend : (words .gap text).2 = .unclosed) :
    ∃ f, (load text first).parseBy inside = .error f := by
  obtain ⟨q, hq, -⟩ := parse_of_layout first hok hlayout
  have hanywhere : Parsed True (text.length + 1) [] (words .gap text).1 (words .gap text).2
      ((load text first).parseBy anywhere) :=
    parsed_load accesses_anywhere fun p => iff_of_true trivial fun _ => ⟨_, rfl⟩
  have hinside : Parsed ((words .gap text).2 ≠ .unclosed) (text.length + 1) []
      (words .gap text).1 (words .gap text).2 ((load text first).parseBy inside) :=
    parsed_load accesses_inside fun p => inside_bufferSize p
  rw [parseBy_anywhere, hq] at hanywhere
  cases hanywhere with
  | table _ henter =>
    generalize (load text first).parseBy inside = r at hinside ⊢
    cases hinside with
    | table hsound => exact absurd hend (closed_of_enter hsound henter)
    | thrown => exact ⟨_, rfl⟩
    | failed => exact ⟨_, rfl⟩

end Init

/-! ## `LoadSubnetGroup` -/

section Written

variable {table : List Group} {p : SettingParser} {name : WString} {entries : List SubnetEntry}
variable {inetPton : WString → Option IN_ADDR} {sort : List SubnetInfo → List SubnetInfo}

theorem getValue_of_written (h : SettingParser.Answers p table) {key : WString}
    {value : SettingParser.Value}
    (hwritten : Written table name key value) :
    p.getValue (name ++ [dot] ++ key) = .ok value.text := by
  have hname : name ++ [dot] ++ key = name ++ dot :: key := by
    rw [List.append_assoc]
    rfl
  rw [SettingParser.getValue, hname, h.written name key value hwritten]
  rfl

theorem getInt_of_written (h : SettingParser.Answers p table) {key : WString} {n : ℕ}
    (hwritten : Written table name key (.bare (to_wstring n))) (hn : n < 2 ^ 31) :
    p.getInt (name ++ [dot] ++ key) = .ok n := by
  rw [SettingParser.getInt, getValue_of_written h hwritten]
  change (stoi (to_wstring n)).mapError LoadError.stoi = _
  rw [stoi_to_wstring hn]
  rfl

theorem written_pair (hmem : writeGroup name entries ∈ table) {i : ℕ} {e : SubnetEntry}
    (he : entries[i]? = some e) (kv : WString × SettingParser.Value) (hkv : kv ∈ e.pairs i) :
    Written table name kv.1 kv.2 := by
  refine ⟨_, hmem, rfl, List.mem_cons_of_mem _ (List.mem_flatMap.2 ⟨(e, i), ?_, hkv⟩)⟩
  exact List.mem_zipIdx_iff_getElem?.2 he

theorem loadSubnet_of_written (h : SettingParser.Answers p table)
    (hmem : writeGroup name entries ∈ table) (hok : EntriesOk entries) {i : ℕ} {e : SubnetEntry}
    (he : entries[i]? = some e) :
    loadSubnet inetPton p (name ++ [dot]) i = .ok (e.info inetPton) := by
  have hmask := written_pair hmem he (mask_ ++ to_wstring i, .bare (to_wstring e.mask))
    List.mem_cons_self
  have hip := written_pair hmem he (ip_ ++ to_wstring i, e.ip)
    (List.mem_cons_of_mem _ List.mem_cons_self)
  have hle := (hok.each e (List.mem_of_getElem? he)).mask
  have hint := getInt_of_written h hmask (by omega)
  have hvalue := getValue_of_written h hip
  rw [← List.append_assoc] at hint hvalue
  rw [loadSubnet, hint]
  change Except.bind (p.getValue _) _ = _
  rw [hvalue]
  rfl

theorem mapM_ok {α β ε : Type} {f : α → Except ε β} {g : α → β} {l : List α}
    (h : ∀ a ∈ l, f a = .ok (g a)) : l.mapM f = .ok (l.map g) := by
  induction l with
  | nil => rfl
  | cons a l ih =>
    rw [List.mapM_cons, h a List.mem_cons_self, ih fun b hb => h b (List.mem_cons_of_mem a hb)]
    rfl

/-- **A group that is written is loaded.** -/
theorem loadSubnetGroup_of_written (h : SettingParser.Answers p table)
    (hmem : writeGroup name entries ∈ table) (hok : EntriesOk entries) :
    loadSubnetGroup inetPton sort p name = .ok (sort (entries.map (·.info inetPton))) := by
  have hwritten : Written table name len (.bare (to_wstring entries.length)) :=
    ⟨_, hmem, rfl, List.mem_cons_self⟩
  have hlen := getInt_of_written h hwritten hok.length
  have heach : ∀ i ∈ List.range entries.length, loadSubnet inetPton p (name ++ [dot]) i =
      .ok (((entries[i]?).map (·.info inetPton)).getD ⟨0, 0, []⟩) := by
    intro i hi
    have hlt := List.mem_range.1 hi
    rw [loadSubnet_of_written h hmem hok (List.getElem?_eq_getElem hlt),
      List.getElem?_eq_getElem hlt]
    rfl
  have hmap : (List.range entries.length).map
      (fun i => ((entries[i]?).map (·.info inetPton)).getD ⟨0, 0, []⟩) =
        entries.map (·.info inetPton) := by
    refine List.ext_getElem (by simp) fun i hi _ => ?_
    have hlt : i < entries.length := by simpa using hi
    simp [List.getElem?_eq_getElem hlt]
  rw [loadSubnetGroup, hlen]
  change Except.bind ((List.range ((entries.length : ℤ).toNat)).mapM _) _ = _
  rw [Int.toNat_natCast, mapM_ok heach, hmap]
  rfl

theorem SubnetEntry.Ok.valid {e : SubnetEntry} (h : e.Ok) : (e.info inetPton).Valid := by
  have hmask := h.mask
  have hsize : (e.info inetPton).subnetSize.toInt = e.mask := by
    change (BitVec.ofNat 8 e.mask).toInt = e.mask
    rw [BitVec.toInt_eq_toNat_cond, BitVec.toNat_ofNat]
    split <;> omega
  rw [SubnetInfo.Valid, hsize]
  omega

theorem SubnetEntry.Ok.toNat_subnetSize {e : SubnetEntry} (h : e.Ok) :
    (e.info inetPton).subnetSize.toNat = e.mask := by
  have hmask := h.mask
  change (BitVec.ofNat 8 e.mask).toNat = e.mask
  rw [BitVec.toNat_ofNat]
  omega

/-! ## Writing -/

/-- A dot, or a character from `0` to `z` that is no colon. -/
def IsPlain (c : WChar) : Prop :=
  (c.toNat = 0x2E ∨ 0x30 ≤ c.toNat) ∧ c.toNat ≤ 0x7A ∧ c.toNat ≠ 0x3A

instance (c : WChar) : Decidable (IsPlain c) := inferInstanceAs (Decidable (_ ∧ _))

/-- A word of dots and of characters from `0` to `z` that has no colon. -/
theorem isBare_of_chars {w : WString} (hne : w ≠ []) (hlength : w.length < MAX_WORD_SIZE)
    (h : ∀ c ∈ w, IsPlain c) : IsBare w := by
  have hslash {l : WString} : ¬ slash :: l <+: w := by
    rintro ⟨rest, rfl⟩
    exact absurd (h slash List.mem_cons_self) (by decide)
  refine ⟨hne, hlength, fun c hc hmem => ?_, hslash, hslash⟩
  have hbounds := h c hc
  simp only [List.mem_cons, List.not_mem_nil, or_false] at hmem
  rcases hmem with rfl | rfl | rfl | rfl | rfl | rfl | rfl | rfl | rfl | rfl <;>
    exact absurd hbounds (by decide)

theorem isPlain_of_mem {n : ℕ} {c : WChar} (h : c ∈ to_wstring n) : IsPlain c := by
  have := digit_bounds (isDigit_of_mem h)
  rw [IsPlain]
  omega

theorem isBare_to_wstring {n : ℕ} (hn : n < 2 ^ 31) : IsBare (to_wstring n) := by
  have hlength := length_to_wstring (n := n) (k := 10) (by decide) (by omega)
  refine isBare_of_chars (to_wstring_ne_nil n) ?_ fun c hc => isPlain_of_mem hc
  have : MAX_WORD_SIZE = 100 := rfl
  omega

theorem isBare_key {w : WString} {i : ℕ} (hi : i < 2 ^ 31) (hlength : w.length ≤ 5)
    (h : ∀ c ∈ w, IsPlain c) : IsBare (w ++ to_wstring i) := by
  have hdigits := length_to_wstring (n := i) (k := 10) (by decide) (by omega)
  refine isBare_of_chars (by simp [to_wstring_ne_nil]) ?_ fun c hc => ?_
  · rw [List.length_append]
    have : MAX_WORD_SIZE = 100 := rfl
    omega
  · rcases List.mem_append.1 hc with hw | hi
    · exact h c hw
    · exact isPlain_of_mem hi

theorem isBare_len : IsBare len :=
  isBare_of_chars (by decide) (by decide) (by simp [len, wide, IsPlain])

theorem isBare_mask {i : ℕ} (hi : i < 2 ^ 31) : IsBare (mask_ ++ to_wstring i) :=
  isBare_key hi (by decide) (by simp [mask_, wide, IsPlain])

theorem isBare_ip {i : ℕ} (hi : i < 2 ^ 31) : IsBare (ip_ ++ to_wstring i) :=
  isBare_key hi (by decide) (by simp [ip_, wide, IsPlain])

theorem keys_pairs (entries : List SubnetEntry) :
    (entries.zipIdx.flatMap fun e => e.1.pairs e.2).map Prod.fst =
      (List.range entries.length).flatMap fun i =>
        [mask_ ++ to_wstring i, ip_ ++ to_wstring i] := by
  have hindex : entries.zipIdx.map Prod.snd = List.range entries.length := by
    rw [List.zipIdx_map_snd, List.range_eq_range']
  rw [← hindex, List.flatMap_map, List.map_flatMap]
  rfl

theorem nodup_keys (entries : List SubnetEntry) :
    ((writeGroup name entries).pairs.map Prod.fst).Nodup := by
  change (len :: (entries.zipIdx.flatMap fun e => e.1.pairs e.2).map Prod.fst).Nodup
  rw [keys_pairs, List.nodup_cons]
  have hmask : mask_ = 0x6D :: wide ['a', 's', 'k', '_'] := rfl
  have hip : ip_ = 0x69 :: wide ['p', '_'] := rfl
  have hlen : len = 0x6C :: wide ['e', 'n'] := rfl
  refine ⟨fun hmem => ?_, List.nodup_flatMap.2 ⟨fun i _ => ?_, ?_⟩⟩
  · obtain ⟨i, -, hi⟩ := List.mem_flatMap.1 hmem
    rw [hmask, hip, hlen] at hi
    simp at hi
  · rw [hmask, hip]
    simp
  · refine List.nodup_range.pairwise_of_forall_ne fun i _ j _ hne k hk hk' => hne ?_
    rw [hmask, hip] at hk hk'
    simp only [List.cons_append, List.mem_cons, List.not_mem_nil, or_false] at hk hk'
    rcases hk with rfl | rfl
    · rcases hk' with heq | heq
      · exact to_wstring_injective (List.append_cancel_left (List.cons.inj heq).2)
      · cases (List.cons.inj heq).1
    · rcases hk' with heq | heq
      · cases (List.cons.inj heq).1
      · exact to_wstring_injective (List.append_cancel_left (List.cons.inj heq).2)

/-- **Every list of entries can be written.** -/
theorem writeGroup_ok (hname : IsBare name) (hdot : dot ∉ name) (hok : EntriesOk entries) :
    (writeGroup name entries).Ok := by
  have hlength := hok.length
  have hpair : ∀ kv ∈ (writeGroup name entries).pairs, IsBare kv.1 ∧ kv.2.Ok := by
    intro kv hkv
    rcases List.mem_cons.1 hkv with rfl | hkv
    · exact ⟨isBare_len, isBare_to_wstring hlength⟩
    · obtain ⟨⟨e, i⟩, hmem, hkv⟩ := List.mem_flatMap.1 hkv
      have he := List.mem_zipIdx_iff_getElem?.1 hmem
      obtain ⟨hlt, -⟩ := List.getElem?_eq_some_iff.1 he
      have hentry := hok.each e (List.mem_of_getElem? he)
      have hmask : e.mask < 2 ^ 31 := hentry.mask.trans_lt (by decide)
      have hi : i < 2 ^ 31 := hlt.trans hlength
      simp only [SubnetEntry.pairs, List.mem_cons, List.not_mem_nil, or_false] at hkv
      rcases hkv with rfl | rfl
      · exact ⟨isBare_mask hi, isBare_to_wstring hmask⟩
      · exact ⟨isBare_ip hi, hentry.ip⟩
  exact ⟨hname, hdot, fun kv hkv => (hpair kv hkv).1, fun kv hkv => (hpair kv hkv).2,
    nodup_keys entries⟩

/-- The tokens, each after a space. -/
def plain : List Token → WString
  | [] => [space]
  | t :: ts => space :: (t.text ++ plain ts)

theorem layout_plain (Block : WString → Prop) (ts : List Token) : Layout Block ts (plain ts) := by
  have hblank : ∀ q ∈ [Piece.blank space], q.Ok Block := by
    intro q hq
    obtain rfl := List.mem_singleton.1 hq
    exact List.mem_cons_self
  induction ts with
  | nil => exact .done hblank .nil
  | cons t ts ih =>
    refine .token hblank (fun w hw c hc => .inl ?_) ih
    cases ts with
    | nil | cons _ _ =>
      obtain rfl := Option.some.inj hc
      exact List.mem_cons_self

/-- **What is written is what is searched.** The constructor succeeds if and
only if the file does not end in a comment or in quotes; the lists then have
the entries that are written, the longest prefixes first, and if those end with
an octet, a search finds the longest match. -/
theorem construct_iff (inetPton : WString → Option IN_ADDR) {text : WString}
    (first second : ℕ → WChar) {lan wan : List SubnetEntry}
    (hsort : ∀ l, LoadedGroup l (sort l)) (hok : TableOk table)
    (hlayout : Layout IsPlainBlock (tokens table) text)
    (hlan : writeGroup LAN lan ∈ table) (hwan : writeGroup WAN wan ∈ table)
    (hlanOk : EntriesOk lan) (hwanOk : EntriesOk wan) :
    ((∃ m, SubnetManager.construct inetPton sort text first second = .ok m) ↔
        (words .gap text).2 ≠ .unclosed) ∧
      ∀ m, SubnetManager.construct inetPton sort text first second = .ok m →
        m.Loaded (lan.map (·.info inetPton)) (wan.map (·.info inetPton)) ∧
          ((∀ e ∈ lan ++ wan, 8 ∣ e.mask) → ∀ x, Answers (lan.map (·.info inetPton))
            (wan.map (·.info inetPton)) x (m.findMatchSubnet x)) := by
  by_cases hend : (words .gap text).2 = .unclosed
  · obtain ⟨f, hf⟩ := init_of_unclosed first hok hlayout hend
    have hfails : SubnetManager.construct inetPton sort text first second = .error (.init f) := by
      rw [SubnetManager.construct, hf]
      rfl
    rw [hfails]
    refine ⟨iff_of_false (fun h => ?_) fun h => h hend, fun m hm => ?_⟩
    · obtain ⟨m, hm⟩ := h
      cases hm
    · cases hm
  · obtain ⟨p, r, hp, hr, hanswers⟩ :=
      answers_of_init first second hok hlayout hend
    have hloads : SubnetManager.construct inetPton sort text first second =
        .ok ⟨sort (lan.map (·.info inetPton)), sort (wan.map (·.info inetPton))⟩ := by
      simp only [SubnetManager.construct, hp, hr, Except.mapError, bind, Except.bind, pure,
        Except.pure, loadSubnetGroup_of_written hanswers hlan hlanOk,
        loadSubnetGroup_of_written hanswers hwan hwanOk]
    rw [hloads]
    refine ⟨iff_of_true ⟨_, rfl⟩ hend, fun m hm => ?_⟩
    obtain rfl := Except.ok.inj hm
    have hloaded : SubnetManager.Loaded (lan.map (·.info inetPton)) (wan.map (·.info inetPton))
        ⟨sort (lan.map (·.info inetPton)), sort (wan.map (·.info inetPton))⟩ :=
      ⟨hsort _, hsort _⟩
    refine ⟨hloaded, fun hdvd x => ?_⟩
    have heach : ∀ d ∈ lan.map (·.info inetPton) ++ wan.map (·.info inetPton),
        ∃ e ∈ lan ++ wan, e.Ok ∧ d = e.info inetPton := by
      intro d hd
      rw [← List.map_append] at hd
      obtain ⟨e, he, rfl⟩ := List.mem_map.1 hd
      exact ⟨e, he, (List.mem_append.1 he).elim (hlanOk.each e) (hwanOk.each e), rfl⟩
    refine findMatchSubnet_of_dvd hloaded (fun d hd => ?_) fun d hd => ?_
    · obtain ⟨e, -, he, rfl⟩ := heach d hd
      exact he.valid
    · obtain ⟨e, hmem, he, rfl⟩ := heach d hd
      rw [he.toNat_subnetSize]
      exact hdvd e hmem

/-- With `10.0.0.0/8` in the LAN list, and an empty WAN list. -/
theorem construct_iff_ten : ∃ text : WString, ∃ inetPton : WString → Option IN_ADDR, ∃ m,
    inetPton (wide ['1', '0', '.', '0', '.', '0', '.', '0']) = some 0x0000000A ∧
      SubnetManager.construct inetPton
        (fun l => l.mergeSort fun a b => b.subnetSize.toInt ≤ a.subnetSize.toInt) text
        (fun _ => 0) (fun _ => 0) = .ok m ∧
      m.Loaded [⟨8, 0x0000000A, wide ['1', '0', '.', '0', '.', '0', '.', '0']⟩] [] ∧
      Answers [⟨8, 0x0000000A, wide ['1', '0', '.', '0', '.', '0', '.', '0']⟩] [] 0x0302010A
        (m.findMatchSubnet 0x0302010A) := by
  let ten : WString := wide ['1', '0', '.', '0', '.', '0', '.', '0']
  let lan : List SubnetEntry := [⟨8, .bare ten⟩]
  let table : List Group := [writeGroup LAN lan, writeGroup WAN []]
  let inetPton : WString → Option IN_ADDR := fun ip => if ip = ten then some 0x0000000A else none
  have hten : IsBare ten := isBare_of_chars (by decide) (by decide) (by simp [ten, wide, IsPlain])
  have hlan : EntriesOk lan := by
    refine ⟨fun e he => ?_, by decide⟩
    obtain rfl := List.mem_singleton.1 he
    exact ⟨by decide, hten⟩
  have hnone : EntriesOk [] := ⟨nofun, by decide⟩
  have hLAN : IsBare LAN := isBare_of_chars (by decide) (by decide) (by simp [LAN, wide, IsPlain])
  have hWAN : IsBare WAN := isBare_of_chars (by decide) (by decide) (by simp [WAN, wide, IsPlain])
  have hok : TableOk table := by
    refine ⟨fun g hg => ?_, by decide, by decide⟩
    simp only [table, List.mem_cons, List.not_mem_nil, or_false] at hg
    rcases hg with rfl | rfl
    · exact writeGroup_ok hLAN (by decide) hlan
    · exact writeGroup_ok hWAN (by decide) hnone
  obtain ⟨hiff, hloaded⟩ := construct_iff inetPton (fun _ => 0) (fun _ => 0)
    (fun l => Ranking.ranking_mergeSort _ l) hok
    (layout_plain IsPlainBlock (tokens table)) List.mem_cons_self
    (List.mem_cons_of_mem _ List.mem_cons_self) hlan hnone
  have hend : (words .gap (plain (tokens table))).2 ≠ .unclosed := by decide +kernel
  obtain ⟨m, hm⟩ := hiff.2 hend
  obtain ⟨hlists, hanswers⟩ := hloaded m hm
  exact ⟨plain (tokens table), inetPton, m, if_pos rfl, hm, hlists, hanswers (by decide) _⟩

end Written

end NetLib
