import Mathlib.Data.Nat.Bitwise
import Mathlib.Tactic.IntervalCases
import NetLib.Library.Ranking
import NetLib.Types
/-!
# `SubnetManager`

Which configured subnet an address belongs to. An address is kept in network
order, so that on a little-endian machine its first octet is the lowest byte of
`S_addr`; `IsSameSubnet` builds its mask from the low end of that word. Of an
octet that a prefix cuts, it compares the lowest bits, where the prefix means
the highest.
-/

namespace NetLib

/-- `IN_ADDR`, by its `S_addr`. -/
abbrev IN_ADDR := BitVec 32

namespace IN_ADDR

/-- The address as it is written: the first octet is the highest byte. -/
def dotted (a : IN_ADDR) : BitVec 32 :=
  a.extractLsb' 0 8 ++ a.extractLsb' 8 8 ++ a.extractLsb' 16 8 ++ a.extractLsb' 24 8

/-- The first `n` bits of both addresses agree. -/
def SamePrefix (n : ℕ) (a b : IN_ADDR) : Prop := ∀ i < n, a.dotted.getMsbD i = b.dotted.getMsbD i

/-- The first `n / 8` octets agree, and of the next one the `n % 8` lowest
bits. -/
def SameLow (n : ℕ) (a b : IN_ADDR) : Prop := ∀ i < n, a.getLsbD i = b.getLsbD i

instance (n : ℕ) (a b : IN_ADDR) : Decidable (SamePrefix n a b) :=
  inferInstanceAs (Decidable (∀ i < n, _))

instance (n : ℕ) (a b : IN_ADDR) : Decidable (SameLow n a b) :=
  inferInstanceAs (Decidable (∀ i < n, _))

end IN_ADDR

open IN_ADDR

/-- `0xFFFFFFFFull >> (32 - subnetMaskBits & 0xFFFFFFFF)` -/
def subnetMask (subnetMaskBits : BitVec 8) : BitVec 32 :=
  ((0xFFFFFFFF : BitVec 64) >>> (BitVec.ofInt 32 (32 - subnetMaskBits.toInt)).toNat).setWidth 32

/-- `Socket::IsSameSubnet`; `none` where `ASSERT_CRASH` stops. -/
def isSameSubnet (a b : IN_ADDR) (subnetMaskBits : BitVec 8) : Option Bool :=
  if 0 ≤ subnetMaskBits.toInt ∧ subnetMaskBits.toInt ≤ 32 then
    some (a &&& subnetMask subnetMaskBits == b &&& subnetMask subnetMaskBits)
  else none

/-- `SubnetInfo`; the size is a `char`. -/
structure SubnetInfo where
  subnetSize : BitVec 8
  address : IN_ADDR
  addressStr : WString
  deriving DecidableEq

structure SubnetManager where
  lanSubnet : List SubnetInfo
  wanSubnet : List SubnetInfo

/-- `FindSubnet` -/
def findSubnet : List SubnetInfo → IN_ADDR → Option (Option SubnetInfo)
  | [], _ => some none
  | data :: group, info => do
    if ← isSameSubnet data.address info data.subnetSize then some (some data)
    else findSubnet group info

/-- `FindMatchSubnet` -/
def SubnetManager.findMatchSubnet (m : SubnetManager) (info : IN_ADDR) :
    Option (Option SubnetInfo) := do
  match ← findSubnet m.lanSubnet info with
  | some subnetResult => some (some subnetResult)
  | none => findSubnet m.wanSubnet info

namespace SubnetInfo

variable (e : SubnetInfo) (x : IN_ADDR)

/-- A prefix length: from 0 to 32. -/
def Valid : Prop := 0 ≤ e.subnetSize.toInt ∧ e.subnetSize.toInt ≤ 32

/-- The subnet contains the address. -/
def Contains : Prop := SamePrefix e.subnetSize.toNat e.address x

/-- The mask of the subnet finds no difference. -/
def Masks : Prop := SameLow e.subnetSize.toNat e.address x

instance : Decidable e.Valid := inferInstanceAs (Decidable (_ ∧ _))

instance : Decidable (e.Contains x) := inferInstanceAs (Decidable (SamePrefix _ _ _))

instance : Decidable (e.Masks x) := inferInstanceAs (Decidable (SameLow _ _ _))

end SubnetInfo

/-- What `LoadSubnetGroup` leaves of the configured entries: `ranges::sort`
orders them by descending size, those of one size in any order. -/
abbrev LoadedGroup (configured container : List SubnetInfo) : Prop :=
  Ranking (fun e => e.subnetSize.toInt) configured container

/-- The manager after `LoadSubnets`. -/
structure SubnetManager.Loaded (lan wan : List SubnetInfo) (m : SubnetManager) : Prop where
  lan : LoadedGroup lan m.lanSubnet
  wan : LoadedGroup wan m.wanSubnet

/-- Of the entries of `l` that contain the address, `e` has the longest
prefix. -/
structure LongestMatch (l : List SubnetInfo) (x : IN_ADDR) (e : SubnetInfo) : Prop where
  mem : e ∈ l
  contains : e.Contains x
  le : ∀ d ∈ l, d.Contains x → d.subnetSize.toInt ≤ e.subnetSize.toInt

/-- The answer is the longest match, of the LAN entries if one contains the
address; or nothing if no entry does. -/
def Answers (lan wan : List SubnetInfo) (x : IN_ADDR) : Option (Option SubnetInfo) → Prop
  | none => False
  | some none => ∀ d ∈ lan ++ wan, ¬d.Contains x
  | some (some e) => LongestMatch lan x e ∨ (∀ d ∈ lan, ¬d.Contains x) ∧ LongestMatch wan x e

/-- Where the mask of an entry is wrong about the address, another entry of
the list is in front of it whose mask is right to find no difference. -/
def Shielded (l : List SubnetInfo) (x : IN_ADDR) : Prop :=
  ∀ e ∈ l, (e.Contains x ↔ e.Masks x) ∨ ∃ d ∈ l, (d.Contains x ∧ d.Masks x) ∧
    (e.subnetSize.toInt < d.subnetSize.toInt ∨
      e.subnetSize.toInt = d.subnetSize.toInt ∧ e.Contains x)

instance (l : List SubnetInfo) (x : IN_ADDR) : Decidable (Shielded l x) :=
  inferInstanceAs (Decidable (∀ e ∈ l, _))

/-! ## The mask -/

/-- A bit of the written address. -/
theorem getMsbD_dotted (a : IN_ADDR) {i : ℕ} (hi : i < 32) :
    a.dotted.getMsbD i = a.getLsbD (8 * (i / 8) + (7 - i % 8)) := by
  change BitVec.getMsbD (w := 8 + 8 + 8 + 8) (_ ++ _ ++ _ ++ _) i = _
  rw [BitVec.getMsbD_append, BitVec.getMsbD_append, BitVec.getMsbD_append]
  interval_cases i <;> simp [BitVec.getMsbD_eq_getLsbD]

theorem getLsbD_subnetMask {bits : BitVec 8} (h : 0 ≤ bits.toInt) (h' : bits.toInt ≤ 32) {i : ℕ}
    (hi : i < 32) : (subnetMask bits).getLsbD i = decide (i < bits.toNat) := by
  have hnat : (bits.toNat : ℤ) = bits.toInt := by
    rw [BitVec.toInt_eq_toNat_cond] at h h' ⊢
    split at h <;> omega
  have hshift : (BitVec.ofInt 32 (32 - bits.toInt)).toNat = 32 - bits.toNat := by
    rw [BitVec.toNat_ofInt, ← hnat]
    omega
  have hones (j : ℕ) : (0xFFFFFFFF : BitVec 64).getLsbD j = decide (j < 32) := by
    change Nat.testBit (2 ^ 32 - 1) j = _
    exact Nat.testBit_two_pow_sub_one 32 j
  rw [subnetMask, hshift, BitVec.getLsbD_setWidth, BitVec.getLsbD_ushiftRight, hones,
    decide_eq_true hi, Bool.true_and, decide_eq_decide]
  omega

theorem SubnetInfo.Valid.toNat_le {e : SubnetInfo} (h : e.Valid) : e.subnetSize.toNat ≤ 32 := by
  obtain ⟨hpos, hle⟩ := h
  rw [BitVec.toInt_eq_toNat_cond] at hpos hle
  split at hpos <;> omega

/-- **What `IsSameSubnet` compares.** -/
theorem isSameSubnet_eq {e : SubnetInfo} (h : e.Valid) (x : IN_ADDR) :
    isSameSubnet e.address x e.subnetSize = some (decide (e.Masks x)) := by
  have hmask {i : ℕ} := getLsbD_subnetMask h.1 h.2 (i := i)
  have hnat := h.toNat_le
  rw [isSameSubnet, if_pos ⟨h.1, h.2⟩, Option.some_inj, Bool.eq_iff_iff, beq_iff_eq,
    decide_eq_true_eq]
  constructor
  · intro heq i hi
    have hbit := congrArg (·.getLsbD i) heq
    simpa [BitVec.getLsbD_and, hmask (show i < 32 by omega), hi] using hbit
  · intro hsame
    refine BitVec.eq_of_getLsbD_eq fun i hi => ?_
    rw [BitVec.getLsbD_and, BitVec.getLsbD_and, hmask hi]
    by_cases hlt : i < e.subnetSize.toNat
    · rw [hsame i hlt]
    · rw [decide_eq_false hlt, Bool.and_false, Bool.and_false]

/-- **The mask is the prefix** if it ends with an octet. -/
theorem samePrefix_iff_sameLow {n : ℕ} (hn : n ≤ 32) (hdvd : 8 ∣ n) (a b : IN_ADDR) :
    SamePrefix n a b ↔ SameLow n a b := by
  obtain ⟨q, rfl⟩ := hdvd
  constructor
  · intro hsame i hi
    have := hsame (8 * (i / 8) + (7 - i % 8)) (by omega)
    rw [getMsbD_dotted a (by omega), getMsbD_dotted b (by omega)] at this
    rwa [show 8 * ((8 * (i / 8) + (7 - i % 8)) / 8) +
      (7 - (8 * (i / 8) + (7 - i % 8)) % 8) = i by omega] at this
  · intro hsame i hi
    rw [getMsbD_dotted a (by omega), getMsbD_dotted b (by omega)]
    exact hsame _ (by omega)

/-- **And only then.** -/
theorem dvd_of_samePrefix_iff_sameLow {n : ℕ} (hn : n ≤ 32)
    (h : ∀ a b, SamePrefix n a b ↔ SameLow n a b) : 8 ∣ n := by
  by_contra hdvd
  -- the two addresses differ in the lowest bit of the octet that is cut
  have hprefix : SamePrefix n 0 (BitVec.twoPow 32 (8 * (n / 8))) := by
    intro i hi
    rw [getMsbD_dotted _ (by omega), getMsbD_dotted _ (by omega), BitVec.getLsbD_twoPow]
    have hne : ¬8 * (n / 8) = 8 * (i / 8) + (7 - i % 8) := by omega
    simp [hne]
  have hlow := (h _ _).1 hprefix (8 * (n / 8)) (by omega)
  rw [BitVec.getLsbD_twoPow] at hlow
  simp at hlow
  omega

/-! ## The search -/

variable {lan wan l group : List SubnetInfo} {x : IN_ADDR}

theorem findSubnet_eq (h : ∀ e ∈ group, e.Valid) (x : IN_ADDR) :
    findSubnet group x = some (group.find? fun e => decide (e.Masks x)) := by
  induction group with
  | nil => rfl
  | cons e group ih =>
    have hrest := ih fun d hd => h d (List.mem_cons_of_mem e hd)
    rw [findSubnet, isSameSubnet_eq (h e List.mem_cons_self), List.find?_cons]
    by_cases hmasks : e.Masks x
    · simp [hmasks]
    · simp [hmasks, hrest]

theorem findMatchSubnet_eq {m : SubnetManager} (hm : m.Loaded lan wan)
    (h : ∀ e ∈ lan ++ wan, e.Valid) (x : IN_ADDR) : m.findMatchSubnet x =
      some ((m.lanSubnet.find? fun e => decide (e.Masks x)).or
        (m.wanSubnet.find? fun e => decide (e.Masks x))) := by
  have hlan := findSubnet_eq
    (fun e he => h e (List.mem_append_left wan (hm.lan.perm.mem_iff.1 he))) x
  have hwan := findSubnet_eq
    (fun e he => h e (List.mem_append_right lan (hm.wan.perm.mem_iff.1 he))) x
  rw [SubnetManager.findMatchSubnet, hlan, hwan]
  cases m.lanSubnet.find? fun e => decide (e.Masks x) <;> rfl

/-- A shielded list is searched right. -/
theorem Shielded.longestMatch (hs : Shielded l x) (hl : LoadedGroup l group) {e : SubnetInfo}
    (hfind : group.find? (fun e => decide (e.Masks x)) = some e) :
    LongestMatch l x e ∧ e.Masks x := by
  obtain ⟨hmem, hmasks⟩ := hl.mem_of_find hfind
  have hle {d : SubnetInfo} (hd : d ∈ l) (hdm : d.Masks x) :
      d.subnetSize.toInt ≤ e.subnetSize.toInt := hl.rank_le hfind hd (decide_eq_true hdm)
  have hmasks := of_decide_eq_true hmasks
  refine ⟨⟨hmem, ?_, fun d hd hcontains => ?_⟩, hmasks⟩
  · rcases hs e hmem with hiff | ⟨d, hd, ⟨-, hdm⟩, hlt | ⟨-, hcontains⟩⟩
    · exact hiff.2 hmasks
    · exact absurd (hle hd hdm) (not_le.2 hlt)
    · exact hcontains
  · rcases hs d hd with hiff | ⟨d', hd', ⟨-, hdm⟩, hlt | ⟨heq, -⟩⟩
    · exact hle hd (hiff.1 hcontains)
    · exact hlt.le.trans (hle hd' hdm)
    · exact heq.le.trans (hle hd' hdm)

theorem Shielded.not_contains (hs : Shielded l x) (hl : LoadedGroup l group)
    (hfind : group.find? (fun e => decide (e.Masks x)) = none) {e : SubnetInfo} (he : e ∈ l) :
    ¬e.Contains x := by
  have hnone {d : SubnetInfo} (hd : d ∈ l) : ¬d.Masks x :=
    of_decide_eq_false (hl.not_of_find_none hfind hd)
  rcases hs e he with hiff | ⟨d, hd, ⟨-, hdm⟩, -⟩
  · exact fun hcontains => hnone he (hiff.1 hcontains)
  · exact absurd hdm (hnone hd)

/-- A list is shielded if, in whatever order it is sorted, what is found first
is the longest match. -/
theorem shielded_of_longest
    (h : ∀ group, LoadedGroup l group → ∀ e,
      group.find? (fun e => decide (e.Masks x)) = some e → LongestMatch l x e)
    (hnone : ∀ e ∈ l, e.Contains x → ∃ d ∈ l, d.Masks x) : Shielded l x := by
  intro e he
  by_cases hiff : e.Contains x ↔ e.Masks x
  · exact .inl hiff
  refine .inr ?_
  by_cases hmasks : e.Masks x
  · -- the mask is wrong to find no difference: an entry has to come first
    have hcontains : ¬e.Contains x := fun hcontains => hiff (iff_of_true hcontains hmasks)
    obtain ⟨group, hgroup, hfirst⟩ := Ranking.exists_first
      (fun e : SubnetInfo => e.subnetSize.toInt) he
    obtain ⟨d, hfind, hd⟩ := hfirst (fun e => decide (e.Masks x)) (decide_eq_true hmasks)
    have hlongest := h group hgroup d hfind
    rcases hd with rfl | hlt
    · exact absurd hlongest.contains hcontains
    · exact ⟨d, hlongest.mem, ⟨hlongest.contains,
        of_decide_eq_true (hgroup.mem_of_find hfind).2⟩, .inl hlt⟩
  · -- the mask is wrong to find one: what is found is as long
    have hcontains : e.Contains x := by
      by_contra hcontains
      exact hiff (iff_of_false hcontains hmasks)
    obtain ⟨d', hd', hmasks'⟩ := hnone e he hcontains
    obtain ⟨group, hgroup, hfirst⟩ := Ranking.exists_first
      (fun e : SubnetInfo => e.subnetSize.toInt) hd'
    obtain ⟨d, hfind, -⟩ := hfirst (fun e => decide (e.Masks x)) (decide_eq_true hmasks')
    have hlongest := h group hgroup d hfind
    refine ⟨d, hlongest.mem, ⟨hlongest.contains,
      of_decide_eq_true (hgroup.mem_of_find hfind).2⟩, ?_⟩
    exact (hlongest.le e he hcontains).lt_or_eq.imp_right fun heq => ⟨heq, hcontains⟩

/-- Shielded lists are answered right. -/
theorem answers_of_shielded {m : SubnetManager} (hm : m.Loaded lan wan)
    (h : ∀ e ∈ lan ++ wan, e.Valid) (hlan : Shielded lan x)
    (hwan : Shielded wan x ∨ ∃ d ∈ lan, d.Contains x ∧ d.Masks x) :
    Answers lan wan x (m.findMatchSubnet x) := by
  rw [findMatchSubnet_eq hm h]
  cases hfind : m.lanSubnet.find? fun e => decide (e.Masks x) with
  | some e => exact .inl (hlan.longestMatch hm.lan hfind).1
  | none =>
    have hnone {d : SubnetInfo} (hd : d ∈ lan) : ¬d.Contains x :=
      hlan.not_contains hm.lan hfind hd
    have hwan : Shielded wan x := by
      refine hwan.resolve_right ?_
      rintro ⟨d, hd, hcontains, -⟩
      exact hnone hd hcontains
    cases hfind' : m.wanSubnet.find? fun e => decide (e.Masks x) with
    | some e => exact .inr ⟨fun d hd => hnone hd, (hwan.longestMatch hm.wan hfind').1⟩
    | none =>
      intro d hd
      rcases List.mem_append.1 hd with hd | hd
      · exact hnone hd
      · exact hwan.not_contains hm.wan hfind' hd

/-- **The search finds the longest prefix if and only if** the LAN list is
shielded, and the WAN list is so too, or is not reached. -/
theorem findMatchSubnet_iff (lan wan : List SubnetInfo) (x : IN_ADDR)
    (h : ∀ e ∈ lan ++ wan, e.Valid) :
    (∀ m : SubnetManager, m.Loaded lan wan → Answers lan wan x (m.findMatchSubnet x)) ↔
      Shielded lan x ∧ (Shielded wan x ∨ ∃ d ∈ lan, d.Contains x ∧ d.Masks x) := by
  constructor
  · intro hanswers
    have hanswer {lanS wanS : List SubnetInfo} (hl : LoadedGroup lan lanS)
        (hw : LoadedGroup wan wanS) := by
      have hm : SubnetManager.Loaded lan wan ⟨lanS, wanS⟩ := ⟨hl, hw⟩
      have := hanswers ⟨lanS, wanS⟩ hm
      rwa [findMatchSubnet_eq hm h] at this
    obtain ⟨lanS, hl⟩ := Ranking.exists_ranking (fun e : SubnetInfo => e.subnetSize.toInt) lan
    obtain ⟨wanS, hw⟩ := Ranking.exists_ranking (fun e : SubnetInfo => e.subnetSize.toInt) wan
    have hlan : Shielded lan x := by
      refine shielded_of_longest (fun lanS hl e hfind => ?_) fun e he hcontains => ?_
      · have hanswer := hanswer hl hw
        rw [hfind] at hanswer
        rcases hanswer with hlongest | ⟨hnone, hlongest⟩
        · exact hlongest
        · exact absurd hlongest.contains (hnone e (hl.mem_of_find hfind).1)
      · have hanswer := hanswer hl hw
        cases hfind : lanS.find? fun e => decide (e.Masks x) with
        | some d =>
          obtain ⟨hd, hmasks⟩ := hl.mem_of_find hfind
          exact ⟨d, hd, of_decide_eq_true hmasks⟩
        | none =>
          -- then the answer is a WAN entry, though a LAN entry contains the address
          rw [hfind, Option.none_or] at hanswer
          cases hfind' : wanS.find? fun e => decide (e.Masks x) with
          | none =>
            rw [hfind'] at hanswer
            exact absurd hcontains (hanswer e (List.mem_append_left wan he))
          | some d =>
            rw [hfind'] at hanswer
            rcases hanswer with hlongest | ⟨hnone, -⟩
            · exact ⟨d, hlongest.mem, of_decide_eq_true (hw.mem_of_find hfind').2⟩
            · exact absurd hcontains (hnone e he)
    refine ⟨hlan, ?_⟩
    by_cases hd : ∃ d ∈ lan, d.Contains x ∧ d.Masks x
    · exact .inr hd
    have hfind : (lanS.find? fun e => decide (e.Masks x)) = none := by
      cases hfind : lanS.find? fun e => decide (e.Masks x) with
      | none => rfl
      | some d =>
        obtain ⟨hlongest, hmasks⟩ := hlan.longestMatch hl hfind
        exact absurd ⟨d, hlongest.mem, hlongest.contains, hmasks⟩ hd
    refine .inl (shielded_of_longest (fun wanS hw e hfind' => ?_) fun e he hcontains => ?_)
    · have hanswer := hanswer hl hw
      rw [hfind, hfind'] at hanswer
      rcases hanswer with hlongest | ⟨-, hlongest⟩
      · exact absurd hlongest.contains (hlan.not_contains hl hfind hlongest.mem)
      · exact hlongest
    · have hanswer := hanswer hl hw
      rw [hfind, Option.none_or] at hanswer
      cases hfind' : wanS.find? fun e => decide (e.Masks x) with
      | some d =>
        obtain ⟨hd, hmasks⟩ := hw.mem_of_find hfind'
        exact ⟨d, hd, of_decide_eq_true hmasks⟩
      | none =>
        rw [hfind'] at hanswer
        exact absurd hcontains (hanswer e (List.mem_append_right lan he))
  · exact fun ⟨hlan, hwan⟩ m hm => answers_of_shielded hm h hlan hwan

/-- `10.0.0.0/8` and `10.1.0.0/16` in the LAN list, for `10.1.2.3`. -/
theorem findMatchSubnet_iff_ten :
    SubnetManager.Loaded [⟨8, 0x0000000A, []⟩, ⟨16, 0x0000010A, []⟩] []
        ⟨[⟨16, 0x0000010A, []⟩, ⟨8, 0x0000000A, []⟩], []⟩ ∧
      Answers [⟨8, 0x0000000A, []⟩, ⟨16, 0x0000010A, []⟩] [] 0x0302010A
        (SubnetManager.findMatchSubnet ⟨[⟨16, 0x0000010A, []⟩, ⟨8, 0x0000000A, []⟩], []⟩
          0x0302010A) := by
  have hloaded : SubnetManager.Loaded [⟨8, 0x0000000A, []⟩, ⟨16, 0x0000010A, []⟩] []
      ⟨[⟨16, 0x0000010A, []⟩, ⟨8, 0x0000000A, []⟩], []⟩ :=
    ⟨⟨.swap .., by decide⟩, ⟨.refl _, .nil⟩⟩
  exact ⟨hloaded, (findMatchSubnet_iff _ [] 0x0302010A (by decide)).2 (by decide) _ hloaded⟩

/-- **Prefixes that end with an octet are searched right.** -/
theorem findMatchSubnet_of_dvd {m : SubnetManager} (hm : m.Loaded lan wan)
    (h : ∀ e ∈ lan ++ wan, e.Valid) (hdvd : ∀ e ∈ lan ++ wan, 8 ∣ e.subnetSize.toNat) :
    Answers lan wan x (m.findMatchSubnet x) := by
  have hiff {e : SubnetInfo} (he : e ∈ lan ++ wan) : e.Contains x ↔ e.Masks x :=
    samePrefix_iff_sameLow (h e he).toNat_le (hdvd e he) _ _
  have hlan : Shielded lan x := fun e he => .inl (hiff (List.mem_append_left wan he))
  have hwan : Shielded wan x := fun e he => .inl (hiff (List.mem_append_right lan he))
  exact answers_of_shielded hm h hlan (.inl hwan)

/-- **`10.32.0.0/12` does not match `10.33.0.0`**: of the second octet, the
mask compares the four lowest bits. -/
theorem findMatchSubnet_misses :
    (SubnetInfo.mk 12 0x0000200A []).Contains 0x0000210A ∧
      SubnetManager.Loaded [⟨12, 0x0000200A, []⟩] [] ⟨[⟨12, 0x0000200A, []⟩], []⟩ ∧
      SubnetManager.findMatchSubnet ⟨[⟨12, 0x0000200A, []⟩], []⟩ 0x0000210A = some none ∧
      ¬∀ lan wan : List SubnetInfo, ∀ x, (∀ e ∈ lan ++ wan, e.Valid) →
        ∀ m : SubnetManager, m.Loaded lan wan → Answers lan wan x (m.findMatchSubnet x) := by
  have hloaded : SubnetManager.Loaded [⟨12, 0x0000200A, []⟩] [] ⟨[⟨12, 0x0000200A, []⟩], []⟩ :=
    ⟨⟨.refl _, List.pairwise_singleton _ _⟩, ⟨.refl _, .nil⟩⟩
  have hmisses : SubnetManager.findMatchSubnet ⟨[⟨12, 0x0000200A, []⟩], []⟩ 0x0000210A =
    some none := by decide
  have hcontains : (SubnetInfo.mk 12 0x0000200A []).Contains 0x0000210A := by decide
  refine ⟨hcontains, hloaded, hmisses, fun hall => ?_⟩
  have hanswer := hall _ _ 0x0000210A (by decide) _ hloaded
  rw [hmisses] at hanswer
  exact hanswer _ List.mem_cons_self hcontains

end NetLib
