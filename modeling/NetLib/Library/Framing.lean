import Mathlib.Data.List.Basic
import Mathlib.Tactic.Common
/-!
# Framed streams

A framing looks at what has arrived of a stream and says that the next item
is there, that more must arrive first, or that the stream is bad. What it
has said once does not change when more arrives. Then it does not matter
how the stream was cut: a reader that keeps the undecided rest between
arrivals ends as a reader of the whole stream does.
-/

/-- What a framing says of the part of a stream that has arrived. -/
inductive Frame (β : Type*)
  | more
  | bad
  /-- The item `x`, taking the first `n` elements. -/
  | item (x : β) (n : ℕ)

/-- A framing of streams over `α` into items of `β`. -/
structure Framing (α β : Type*) where
  next : List α → Frame β
  pos {l : List α} {x : β} {n : ℕ} : next l = .item x n → 0 < n ∧ n ≤ l.length
  item_append {l : List α} {x : β} {n : ℕ} (m : List α) :
    next l = .item x n → next (l ++ m) = .item x n
  bad_append {l : List α} (m : List α) : next l = .bad → next (l ++ m) = .bad

namespace Framing

variable {α β : Type*} (F : Framing α β)

/-- What is left of a stream: undecided elements, or nothing as it was bad. -/
inductive Rest (α : Type*)
  | pending (l : List α)
  | closed

/-- The items of a stream, and its rest. -/
def parse (l : List α) : List β × Rest α :=
  match _h : F.next l with
  | .more => ([], .pending l)
  | .bad => ([], .closed)
  | .item x n => (x :: (parse (l.drop n)).1, (parse (l.drop n)).2)
termination_by l.length
decreasing_by
  all_goals
    have := F.pos _h
    rw [List.length_drop]
    omega

variable {F} {l m : List α} {x : β} {n : ℕ}

theorem parse_more (h : F.next l = .more) : F.parse l = ([], .pending l) := by
  rw [parse]
  split <;> simp_all

theorem parse_bad (h : F.next l = .bad) : F.parse l = ([], .closed) := by
  rw [parse]
  split <;> simp_all

theorem parse_item (h : F.next l = .item x n) :
    F.parse l = (x :: (F.parse (l.drop n)).1, (F.parse (l.drop n)).2) := by
  rw [parse]
  split <;> simp_all

/-- What is pending is undecided. -/
theorem next_pending {xs : List β} {r : List α} (h : F.parse l = (xs, .pending r)) :
    F.next r = .more := by
  induction hl : l.length using Nat.strongRecOn generalizing l xs with
  | _ k ih =>
    cases hn : F.next l with
    | more =>
      rw [parse_more hn] at h
      obtain ⟨-, hr⟩ := Prod.mk.inj h
      exact Rest.pending.inj hr ▸ hn
    | bad =>
      rw [parse_bad hn] at h
      exact absurd (Prod.mk.inj h).2 (by simp)
    | item x n =>
      rw [parse_item hn] at h
      obtain ⟨hpos, hle⟩ := F.pos hn
      refine ih (l.drop n).length ?_ (Prod.ext rfl (Prod.mk.inj h).2) rfl
      rw [List.length_drop]
      omega

/-- And it is the end of the stream. -/
theorem pending_suffix {xs : List β} {r : List α} (h : F.parse l = (xs, .pending r)) :
    r <:+ l := by
  induction hl : l.length using Nat.strongRecOn generalizing l xs with
  | _ k ih =>
    cases hn : F.next l with
    | more =>
      rw [parse_more hn] at h
      obtain ⟨-, hr⟩ := Prod.mk.inj h
      exact Rest.pending.inj hr ▸ List.suffix_rfl
    | bad =>
      rw [parse_bad hn] at h
      exact absurd (Prod.mk.inj h).2 (by simp)
    | item x n =>
      rw [parse_item hn] at h
      obtain ⟨hpos, hle⟩ := F.pos hn
      refine (ih (l.drop n).length ?_ (Prod.ext rfl (Prod.mk.inj h).2) rfl).trans
        (List.drop_suffix n l)
      rw [List.length_drop]
      omega

/-! ## Cutting -/

variable (F) in
/-- A reader: the items so far and the rest, when `m` arrives. -/
def feed (st : List β × Rest α) (m : List α) : List β × Rest α :=
  match st.2 with
  | .pending r => (st.1 ++ (F.parse (r ++ m)).1, (F.parse (r ++ m)).2)
  | .closed => st

/-- **What arrives is read as if it had been there from the start.** -/
theorem feed_parse (l m : List α) : F.feed (F.parse l) m = F.parse (l ++ m) := by
  induction hl : l.length using Nat.strongRecOn generalizing l with
  | _ k ih =>
    cases hn : F.next l with
    | more => rw [parse_more hn]; rfl
    | bad => rw [parse_bad hn, parse_bad (F.bad_append m hn)]; rfl
    | item x n =>
      obtain ⟨hpos, hle⟩ := F.pos hn
      have hrec := ih (l.drop n).length (by rw [List.length_drop]; omega) (l.drop n) rfl
      rw [parse_item hn, parse_item (F.item_append m hn), List.drop_append_of_le_length hle, ← hrec]
      cases hr : (F.parse (l.drop n)).2 with
      | pending r => simp only [feed, hr, List.cons_append]
      | closed => simp only [feed, hr]

/-- **However it is cut.** -/
theorem foldl_feed (l : List α) (segs : List (List α)) :
    segs.foldl F.feed (F.parse l) = F.parse (l ++ segs.flatten) := by
  induction segs generalizing l with
  | nil => rw [List.foldl_nil, List.flatten_nil, List.append_nil]
  | cons m segs ih => rw [List.foldl_cons, feed_parse, ih, List.flatten_cons, List.append_assoc]

/-- **A reader may be ahead of the rest**: the items it has read before stay
in front of what the rest and the new elements are read as. -/
theorem parse_append {r : List α} {xs : List β}
    (h : F.parse l = (xs ++ (F.parse r).1, (F.parse r).2)) (m : List α) :
    F.parse (l ++ m) = (xs ++ (F.parse (r ++ m)).1, (F.parse (r ++ m)).2) := by
  rw [← feed_parse l, ← feed_parse r, h]
  cases hr : (F.parse r).2 with
  | pending r' => simp only [feed, hr, List.append_assoc]
  | closed => simp only [feed, hr]

/-- A stream that is bad stays bad. -/
theorem parse_append_closed (h : (F.parse l).2 = .closed) (m : List α) :
    F.parse (l ++ m) = F.parse l := by
  rw [← feed_parse, feed, h]

/-! ## Streams of whole items -/

/-- `w` is the frame of the item `x`, whatever follows. -/
def Frames (F : Framing α β) (w : List α) (x : β) : Prop :=
  ∀ m, F.next (w ++ m) = .item x w.length

/-- **A stream of frames is read as its items**, and nothing is left. -/
theorem parse_frames {ws : List (List α)} {xs : List β} (h : List.Forall₂ F.Frames ws xs)
    (hnil : F.next [] = .more) : F.parse ws.flatten = (xs, .pending []) := by
  induction h with
  | nil => exact parse_more hnil
  | cons hw _ ih =>
    rw [List.flatten_cons, parse_item (hw _), List.drop_left, ih]

/-- Of a part of such a stream less than one frame is pending. -/
theorem pending_of_prefix {ws : List (List α)} {xs ys : List β} {l r : List α} {b : ℕ}
    (h : List.Forall₂ F.Frames ws xs) (hb : ∀ w ∈ ws, w.length ≤ b) (hl : l <+: ws.flatten)
    (hp : F.parse l = (ys, .pending r)) (hnil : F.next [] = .more) (hpos : 0 < b) :
    r.length < b := by
  induction h generalizing l ys with
  | nil =>
    obtain rfl : l = [] := List.prefix_nil.1 hl
    rw [parse_more hnil] at hp
    obtain rfl := Rest.pending.inj (Prod.mk.inj hp).2
    exact hpos
  | @cons w x ws xs hw _ ih =>
    obtain ⟨m, hm⟩ := hl
    rw [List.flatten_cons] at hm
    by_cases hlen : w.length ≤ l.length
    · -- the first frame is in
      obtain ⟨l', rfl⟩ : w <+: l :=
        List.prefix_of_prefix_length_le ⟨_, rfl⟩ ⟨m, hm⟩ hlen
      rw [List.append_assoc, List.append_cancel_left_eq] at hm
      rw [parse_item (hw l'), List.drop_left] at hp
      exact ih (fun w hw => hb w (List.mem_cons_of_mem _ hw)) ⟨m, hm⟩
        (Prod.ext rfl (Prod.mk.inj hp).2)
    · -- it is not, and nothing else can be decided
      have hmore : F.next l = .more := by
        cases hn : F.next l with
        | more => rfl
        | bad =>
          have := F.bad_append m hn
          rw [hm, hw] at this
          cases this
        | item y n =>
          have := F.item_append m hn
          rw [hm, hw] at this
          obtain ⟨-, hn'⟩ := Frame.item.inj this
          have := (F.pos hn).2
          omega
      rw [parse_more hmore] at hp
      obtain rfl := Rest.pending.inj (Prod.mk.inj hp).2
      have := hb w List.mem_cons_self
      omega

end Framing
