import Mathlib.Data.Int.Notation
import Mathlib.Data.Nat.Notation
import Mathlib.Tactic.Common
/-!
# A reused resource under a reference counter with a release flag

One place is opened for one incarnation after another. Users take and give
back references through a counter; a high bit of the same counter, the
flag, marks the place as closed. Whoever finds the counter at zero and sets
the flag owes one notification, and after it the place may be opened again.
References may also be taken on a closed place, by users who then find the
flag and give them back.

`Life` is what an implementation comes to when its threads are counted, and
`Step` what its steps may do to it. `Inv` is kept by every step, with no
assumption on who wins the race for the flag; `frame` lets a step be checked
on one thread's share of the counts.
-/

namespace Lifecycle

/-- The counts of a place. -/
structure Life (ι : Type) where
  /-- the counter, flag included -/
  count : ℤ
  /-- references held -/
  refs : ℕ
  /-- of those, the ones known to be on the open incarnation -/
  pinned : ℕ
  /-- users that brought the counter to zero and have not tried the flag yet -/
  zeroed : ℕ
  /-- winners of the flag that have not posted yet -/
  owed : ℕ
  /-- holders of the closed place, from the post to the next opening -/
  closed : ℕ
  /-- the name of the incarnation -/
  id : ι
  /-- the names opened and the names posted, in order -/
  opened : List ι
  posted : List ι

variable {ι : Type} {flag : ℤ} {a b c : Life ι}

/-- What a step of one user may do. -/
inductive Step (flag : ℤ) (a b : Life ι) : Prop
  /-- Nothing but forgetting that a reference is pinned. -/
  | stay (hcount : b.count = a.count) (hrefs : b.refs = a.refs) (hpinned : b.pinned ≤ a.pinned)
      (hzeroed : b.zeroed = a.zeroed) (howed : b.owed = a.owed) (hclosed : b.closed = a.closed)
      (hid : b.id = a.id) (hopened : b.opened = a.opened) (hposted : b.posted = a.posted)
  /-- Taking a reference. It is pinned only if the flag was seen clear. -/
  | take (hcount : b.count = a.count + 1) (hrefs : b.refs = a.refs + 1)
      (hpinned : b.pinned ≤ a.pinned ∨ b.pinned = a.pinned + 1 ∧ b.count ≤ flag)
      (hzeroed : b.zeroed = a.zeroed) (howed : b.owed = a.owed) (hclosed : b.closed = a.closed)
      (hid : b.id = a.id) (hopened : b.opened = a.opened) (hposted : b.posted = a.posted)
  /-- Giving one back, and seeing whether the counter came to zero. -/
  | give (hcount : b.count = a.count - 1) (hrefs : b.refs + 1 = a.refs)
      (hpinned : b.pinned ≤ a.pinned)
      (hlast : a.count = 1 → b.zeroed = a.zeroed + 1)
      (hmore : a.count ≠ 1 → b.zeroed = a.zeroed)
      (howed : b.owed = a.owed) (hclosed : b.closed = a.closed)
      (hid : b.id = a.id) (hopened : b.opened = a.opened) (hposted : b.posted = a.posted)
  /-- Trying for the flag, too late. -/
  | lose (hnz : a.count ≠ 0) (hcount : b.count = a.count) (hrefs : b.refs = a.refs)
      (hpinned : b.pinned ≤ a.pinned) (hzeroed : b.zeroed + 1 = a.zeroed)
      (howed : b.owed = a.owed) (hclosed : b.closed = a.closed)
      (hid : b.id = a.id) (hopened : b.opened = a.opened) (hposted : b.posted = a.posted)
  /-- Setting the flag. -/
  | win (hz : a.count = 0) (hcount : b.count = flag) (hrefs : b.refs = a.refs)
      (hpinned : b.pinned ≤ a.pinned) (hzeroed : b.zeroed + 1 = a.zeroed)
      (howed : b.owed = a.owed + 1) (hclosed : b.closed = a.closed)
      (hid : b.id = a.id) (hopened : b.opened = a.opened) (hposted : b.posted = a.posted)
  /-- The notification the winner owes. -/
  | post (hcount : b.count = a.count) (hrefs : b.refs = a.refs) (hpinned : b.pinned ≤ a.pinned)
      (hzeroed : b.zeroed = a.zeroed) (howed : b.owed + 1 = a.owed)
      (hclosed : b.closed = a.closed + 1)
      (hid : b.id = a.id) (hopened : b.opened = a.opened) (hposted : b.posted = a.posted ++ [a.id])
  /-- Naming the next incarnation, while the place is closed. -/
  | rename (hcl : 0 < a.closed) (hcount : b.count = a.count) (hrefs : b.refs = a.refs)
      (hpinned : b.pinned ≤ a.pinned) (hzeroed : b.zeroed = a.zeroed) (howed : b.owed = a.owed)
      (hclosed : b.closed = a.closed) (hopened : b.opened = a.opened)
      (hposted : b.posted = a.posted)
  /-- Clearing the flag, with a reference in hand: the place is open under
  its new name. -/
  | reopen (hcount : flag ≤ a.count → a.count < 2 * flag → b.count = a.count - flag)
      (hpos : 0 < b.refs) (hrefs : b.refs = a.refs) (hzeroed : b.zeroed = a.zeroed)
      (howed : b.owed = a.owed) (hclosed : b.closed + 1 = a.closed)
      (hid : b.id = a.id) (hopened : b.opened = a.opened ++ [a.id]) (hposted : b.posted = a.posted)

/-- What the other users add to the counts of one of them. -/
def Life.add (a : Life ι) (refs pinned zeroed owed closed : ℕ) : Life ι :=
  { a with
    refs := a.refs + refs, pinned := a.pinned + pinned, zeroed := a.zeroed + zeroed
    owed := a.owed + owed, closed := a.closed + closed }

/-- **A step of one user is a step of all of them together.** -/
theorem Step.frame (h : Step flag a b) (r p z o cl : ℕ) :
    Step flag (a.add r p z o cl) (b.add r p z o cl) := by
  cases h with
  | stay => constructor <;> simp only [Life.add] <;> first | assumption | omega
  | take => apply Step.take <;> simp only [Life.add] <;> first | assumption | omega
  | give hcount hrefs hpin hlast hmore =>
    apply Step.give <;> simp only [Life.add] <;> first | assumption | omega
  | lose => apply Step.lose <;> simp only [Life.add] <;> first | assumption | omega
  | win => apply Step.win <;> simp only [Life.add] <;> first | assumption | omega
  | post => apply Step.post <;> simp only [Life.add] <;> first | assumption | omega
  | rename => apply Step.rename <;> simp only [Life.add] <;> first | assumption | omega
  | reopen => apply Step.reopen <;> simp only [Life.add] <;> first | assumption | omega

/-- References come one at a time. -/
theorem Step.refs_le (h : Step flag a b) : b.refs ≤ a.refs + 1 := by
  cases h <;> omega

/-- A place open after a step was open before it, or has just been opened. -/
theorem Step.reopened (h : Step flag a b) (hb : b.owed + b.closed = 0) :
    a.owed + a.closed = 0 ∨ b.id = a.id ∧ b.opened = a.opened ++ [a.id] := by
  cases h with
  | reopen _ _ _ _ _ _ hid hopened => exact .inr ⟨hid, hopened⟩
  | _ => exact .inl (by omega)

/-! ## The invariant -/

/-- The counters of a place: an incarnation is open, or exactly one user is
on the way from the flag to the next opening; the counter holds the
references and the flag; and a counter at zero has someone about to try for
the flag. -/
structure Counted (flag : ℤ) (a : Life ι) : Prop where
  one : a.owed + a.closed ≤ 1
  count_open : a.owed + a.closed = 0 → a.count = a.refs
  count_closed : a.owed + a.closed = 1 → a.count = a.refs + flag
  zeroed : a.owed + a.closed = 0 → a.refs = 0 → 0 < a.zeroed
  pinned : 0 < a.pinned → a.owed + a.closed = 0

/-- Every incarnation is posted, but for the current one as long as it has
not been. -/
def Logged (a : Life ι) : Prop :=
  if a.closed = 0 then a.opened = a.posted ++ [a.id] else a.opened = a.posted

/-- **Every step keeps the counters**, while the references stay below the
flag and the pinned ones are among them. -/
theorem Counted.step (h : Counted flag a) (hs : Step flag a b) (hlt : (a.refs : ℤ) < flag)
    (hlt' : (b.refs : ℤ) < flag) (hle : a.pinned ≤ a.refs) : Counted flag b := by
  obtain ⟨hone, hopen, hclosed, hzeroed, hpinned⟩ := h
  cases hs with
  | stay => constructor <;> omega
  | take => constructor <;> omega
  | give hcount hrefs hpin hlast hmore =>
    -- where the last reference went, the counter came to zero
    by_cases h1 : a.count = 1
    · have := hlast h1
      constructor <;> omega
    · have := hmore h1
      constructor <;> omega
  | lose => constructor <;> omega
  | win => constructor <;> omega
  | post => constructor <;> omega
  | rename => constructor <;> omega
  | reopen => constructor <;> omega

/-- **And the two histories.** The post is the only step that adds to one,
the opening the only one that adds to the other. -/
theorem Logged.step (h : Logged a) (hc : Counted flag a) (hs : Step flag a b) : Logged b := by
  have hone := hc.one
  unfold Logged at h ⊢
  cases hs with
  | post hcount hrefs hpin hz howed hclosed hid hopened hposted =>
    rw [if_pos (by omega)] at h
    rw [if_neg (by omega), hopened, hposted, h]
  | rename hcl hcount hrefs hpin hz howed hclosed hopened hposted =>
    rw [if_neg (by omega)] at h
    rw [if_neg (by omega), hopened, hposted, h]
  | reopen hcount hpos hrefs hz howed hclosed hid hopened hposted =>
    rw [if_neg (by omega)] at h
    rw [if_pos (by omega), hopened, hposted, hid, h]
  | stay _ _ _ _ _ hclosed hid hopened hposted =>
    rw [hclosed, hid, hopened, hposted]; exact h
  | take _ _ _ _ _ hclosed hid hopened hposted =>
    rw [hclosed, hid, hopened, hposted]; exact h
  | give _ _ _ _ _ _ hclosed hid hopened hposted =>
    rw [hclosed, hid, hopened, hposted]; exact h
  | lose _ _ _ _ _ _ hclosed hid hopened hposted =>
    rw [hclosed, hid, hopened, hposted]; exact h
  | win _ _ _ _ _ _ hclosed hid hopened hposted =>
    rw [hclosed, hid, hopened, hposted]; exact h

/-! ## What the invariant says -/

/-- A pinned reference is on an open place. -/
theorem Counted.open_of_pinned (h : Counted flag a) (hp : 0 < a.pinned) : a.closed = 0 := by
  have := h.pinned hp
  omega

/-- With nobody using the place it is closed: nothing is left to post. -/
theorem Counted.closed_of_unused (h : Counted flag a) (hr : a.refs = 0) (hz : a.zeroed = 0)
    (ho : a.owed = 0) : a.closed = 1 := by
  have := h.one
  by_contra hcl
  have := h.zeroed (by omega) hr
  omega

end Lifecycle
