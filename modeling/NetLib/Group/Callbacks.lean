import NetLib.Group.Members
/-!
# The callbacks a group makes for a session

A group calls `OnEnter` and `OnLeave` as it handles the jobs of the session's
moves, and `OnRecv` from `RecvHandler`, which looks at the session's group and
not at its own `_sessions`. `MoveSession` changes the session's group after it
has queued the `Leave` and before it queues the `Enter`, so the two can
disagree. Where they agree each time `RecvHandler` looks, the callbacks are
stays: `OnEnter`, any number of `OnRecv`, `OnLeave`. And `OnDisconnect` comes
after them where no `Leave` of the session is left when it is called.
-/

namespace NetLib

/-! ## Stays -/

namespace Callback

/-- Is it a call of `g` about the session `id`? -/
def about (g : GroupID) (id : SessionID) : Callback → Bool
  | .OnEnter g' id' | .OnLeave g' id' | .OnRecv g' id' => decide (g' = g ∧ id' = id)
  | .OnDisconnect _ => false

/-- One stay in a group: `OnEnter OnRecv* OnLeave`. -/
def IsStay (g : GroupID) (id : SessionID) (l : List Callback) : Prop :=
  ∃ n, l = .OnEnter g id :: (List.replicate n (.OnRecv g id) ++ [.OnLeave g id])

/-- A prefix of `(OnEnter OnRecv* OnLeave)*`. -/
def Protocol (g : GroupID) (id : SessionID) (l : List Callback) : Prop :=
  ∃ stays : List (List Callback), (∀ stay ∈ stays, IsStay g id stay) ∧ l <+: stays.flatten

/-- Stays that are over. -/
def Outside (g : GroupID) (id : SessionID) (l : List Callback) : Prop :=
  ∃ stays : List (List Callback), (∀ stay ∈ stays, IsStay g id stay) ∧ l = stays.flatten

/-- Stays that are over, and one that is not. -/
def Inside (g : GroupID) (id : SessionID) (l : List Callback) : Prop :=
  ∃ (stays : List (List Callback)) (n : ℕ), (∀ stay ∈ stays, IsStay g id stay) ∧
    l = stays.flatten ++ .OnEnter g id :: List.replicate n (.OnRecv g id)

variable {g : GroupID} {id : SessionID} {l : List Callback}

theorem Outside.enter (h : Outside g id l) : Inside g id (l ++ [.OnEnter g id]) := by
  obtain ⟨stays, hstays, rfl⟩ := h
  exact ⟨stays, 0, hstays, rfl⟩

theorem Inside.recv (h : Inside g id l) : Inside g id (l ++ [.OnRecv g id]) := by
  obtain ⟨stays, n, hstays, rfl⟩ := h
  refine ⟨stays, n + 1, hstays, ?_⟩
  rw [List.replicate_succ', List.append_assoc, List.cons_append]

theorem Inside.leave (h : Inside g id l) : Outside g id (l ++ [.OnLeave g id]) := by
  obtain ⟨stays, n, hstays, rfl⟩ := h
  refine ⟨stays ++ [.OnEnter g id :: (List.replicate n (.OnRecv g id) ++ [.OnLeave g id])],
    fun stay hstay => ?_, ?_⟩
  · rcases List.mem_append.1 hstay with hstay | hstay
    · exact hstays stay hstay
    · exact ⟨n, List.mem_singleton.1 hstay⟩
  · rw [List.flatten_append, List.flatten_singleton, List.append_assoc, List.cons_append]

theorem Outside.protocol (h : Outside g id l) : Protocol g id l := by
  obtain ⟨stays, hstays, rfl⟩ := h
  exact ⟨stays, hstays, List.prefix_rfl⟩

theorem Inside.protocol (h : Inside g id l) : Protocol g id l := by
  obtain ⟨stays, hstays, heq⟩ := h.leave
  exact ⟨stays, hstays, heq ▸ List.prefix_append l _⟩

/-! ## A check for stays -/

/-- Can `l` be part of a sequence of stays, from inside one or not? -/
def keeps (g : GroupID) (id : SessionID) : Bool → List Callback → Bool
  | _, [] => true
  | false, c :: l => decide (c = .OnEnter g id) && keeps g id true l
  | true, c :: l =>
    if c = .OnRecv g id then keeps g id true l
    else decide (c = .OnLeave g id) && keeps g id false l

theorem keeps_of_prefix {l' : List Callback} {b : Bool} (h : l <+: l')
    (hk : keeps g id b l' = true) : keeps g id b l = true := by
  induction l generalizing l' b with
  | nil => cases b <;> rfl
  | cons c l ih =>
    obtain ⟨k, rfl⟩ := h
    rw [List.cons_append] at hk
    cases b with
    | false =>
      obtain ⟨hc, hk⟩ := Bool.and_eq_true_iff.1 hk
      exact Bool.and_eq_true_iff.2 ⟨hc, ih (List.prefix_append l k) hk⟩
    | true =>
      rw [keeps] at hk ⊢
      split at hk <;> rename_i hrecv
      · rw [if_pos hrecv]
        exact ih (List.prefix_append l k) hk
      · obtain ⟨hc, hk⟩ := Bool.and_eq_true_iff.1 hk
        rw [if_neg hrecv]
        exact Bool.and_eq_true_iff.2 ⟨hc, ih (List.prefix_append l k) hk⟩

theorem IsStay.keeps {stay : List Callback} (h : IsStay g id stay)
    (hl : Callback.keeps g id false l = true) : Callback.keeps g id false (stay ++ l) = true := by
  obtain ⟨n, rfl⟩ := h
  have hinside : Callback.keeps g id true
      (List.replicate n (.OnRecv g id) ++ [.OnLeave g id] ++ l) = true := by
    induction n with
    | zero => exact Bool.and_eq_true_iff.2 ⟨decide_eq_true rfl, hl⟩
    | succ n ih => exact (if_pos rfl).trans ih
  exact Bool.and_eq_true_iff.2 ⟨decide_eq_true rfl, hinside⟩

theorem keeps_flatten {stays : List (List Callback)} (h : ∀ stay ∈ stays, IsStay g id stay) :
    keeps g id false stays.flatten = true := by
  induction stays with
  | nil => rfl
  | cons stay stays ih =>
    rw [List.flatten_cons]
    exact (h stay List.mem_cons_self).keeps (ih fun s hs => h s (List.mem_cons_of_mem stay hs))

/-- What keeps to the protocol passes the check. -/
theorem Protocol.keeps (h : Protocol g id l) : Callback.keeps g id false l = true := by
  obtain ⟨stays, hstays, hprefix⟩ := h
  exact keeps_of_prefix hprefix (keeps_flatten hstays)

end Callback

namespace Grouped

open Callback

variable {Buf : Type} {index : ℕ} {s s' : Grouped Buf} {w w' : World Buf} {pc pc' : Pc Buf}

/-! ## Callbacks and `_sessions` -/

/-- The callbacks `g` has made for the session `id`. -/
def heard (s : Grouped Buf) (g : GroupID) (id : SessionID) : List Callback :=
  s.callbacks.filter (about g id)

/-- Is the thread between the change of `_sessions` and the callback? -/
def Pc.calling (g : GroupID) (id : SessionID) : Pc Buf → ℕ
  | .onEnter g' id' | .onLeave g' id' _ => if g' = g ∧ id' = id then 1 else 0
  | _ => 0

@[simp] theorem Pc.calling_onEnter (g : GroupID) (id : SessionID) :
    (Pc.onEnter g id : Pc Buf).calling g id = 1 := if_pos ⟨rfl, rfl⟩

@[simp] theorem Pc.calling_onLeave (g : GroupID) (id : SessionID) (last : Bool) :
    (Pc.onLeave g id last : Pc Buf).calling g id = 1 := if_pos ⟨rfl, rfl⟩

/-- The session has been told that it is in the group. -/
def Told (w : World Buf) (g : GroupID) (id : SessionID) : Prop :=
  id ∈ w.shared.sessions g ↔ w.total (Pc.calling g id) = 0

/-- What a thread's program point says about `_sessions`. -/
def Pc.Tells (s : Grouped Buf) : Pc Buf → Prop
  | .onEnter g id | .packet g id => id ∈ s.sessions g
  | .onLeave g id _ => id ∉ s.sessions g
  | _ => True

/-- The group and the session of a `RecvHandler` about to compare the session's
group with its own. -/
def Pc.looksAt : Pc Buf → Option (GroupID × SessionID)
  | .recvLoop g id => some (g, id)
  | _ => none

/-- `RecvHandler` finds the session's group to be its own only where the
session is in its `_sessions`. -/
def Pc.FindsMember (s : Grouped Buf) (pc : Pc Buf) : Prop :=
  ∀ x ∈ pc.looksAt, s.groupId = x.1 → x.2 ∈ s.sessions x.1

instance decidableFindsMember (s : Grouped Buf) (pc : Pc Buf) : Decidable (pc.FindsMember s) :=
  inferInstanceAs (Decidable (∀ x ∈ pc.looksAt, s.groupId = x.1 → x.2 ∈ s.sessions x.1))

/-- What an action does with callbacks and `_sessions`. -/
inductive Calls (s : Grouped Buf) (pc : Pc Buf) (s' : Grouped Buf) (pc' : Pc Buf) : Prop
  | quiet (hheard : ∀ g id, s'.heard g id = s.heard g id) (hsessions : s'.sessions = s.sessions)
      (hcalling : ∀ g id, pc'.calling g id = pc.calling g id) (htells : pc'.Tells s')
  | insert (g : GroupID) (id : SessionID) (hold : pc = .insert g id) (hnew : pc' = .onEnter g id)
      (hcallbacks : s'.callbacks = s.callbacks)
      (hsessions : s'.sessions = Function.update s.sessions g (Insert.insert id (s.sessions g)))
  | onEnter (g : GroupID) (id : SessionID) (hold : pc = .onEnter g id)
      (hnew : pc' = .slot (some g) .idle)
      (hcallbacks : s'.callbacks = s.callbacks ++ [.OnEnter g id])
      (hsessions : s'.sessions = s.sessions)
  | erase (g : GroupID) (id : SessionID) (last : Bool) (hold : pc = .erase g id last)
      (hnew : pc' = .onLeave g id last) (hin : id ∈ s.sessions g)
      (hcallbacks : s'.callbacks = s.callbacks)
      (hsessions : s'.sessions = Function.update s.sessions g ((s.sessions g).erase id))
  | onLeave (g : GroupID) (id : SessionID) (last : Bool) (hold : pc = .onLeave g id last)
      (hnew : pc' = .checkGroup g id last)
      (hcallbacks : s'.callbacks = s.callbacks ++ [.OnLeave g id])
      (hsessions : s'.sessions = s.sessions)
  | onRecv (g : GroupID) (id : SessionID) (hold : pc = .packet g id) (hnew : pc' = .recvLoop g id)
      (hcallbacks : s'.callbacks = s.callbacks ++ [.OnRecv g id])
      (hsessions : s'.sessions = s.sessions)

theorem enter_quiet (home : Option GroupID) (q q' : Slot.Pc Buf) :
    (∀ g id, (enter home q q').calling g id = 0) ∧ (enter home q q').Tells s := by
  unfold enter
  split <;> exact ⟨fun g id => rfl, trivial⟩

theorem heard_observe (s : Grouped Buf) (q : Slot.Pc Buf) (r : Slot Buf) (g : GroupID)
    (id : SessionID) :
    ({ s.observe q with slot := r } : Grouped Buf).heard g id = s.heard g id := by
  unfold observe heard
  split
  · rw [List.filter_append]
    exact List.append_nil _
  · rfl
  · rfl

theorem observe_sessions (s : Grouped Buf) (q : Slot.Pc Buf) (r : Slot Buf) :
    ({ s.observe q with slot := r } : Grouped Buf).sessions = s.sessions := by
  obtain ⟨c, p, hobs⟩ := observe_eq s q
  rw [hobs]

theorem Action.calls {e : Event Buf} (h : Action index s pc e s' pc') (hfinds : pc.FindsMember s) :
    Calls s pc s' pc' := by
  cases h
  case slot home q q' ev r hnext _ =>
    obtain ⟨hcalling, htells⟩ := enter_quiet (s := { s.observe q with slot := r }) home q q'
    exact .quiet (heard_observe s q r) (observe_sessions s q r) hcalling htells
  case dequeue g job _ =>
    cases job <;> exact .quiet (fun _ _ => rfl) rfl (fun _ _ => rfl) trivial
  case insert g id => exact .insert g id rfl rfl rfl rfl
  case onEnter g id => exact .onEnter g id rfl rfl rfl rfl
  case erase g id last hin => exact .erase g id last rfl rfl hin rfl rfl
  case onLeave g id last => exact .onLeave g id last rfl rfl rfl rfl
  case packet g id => exact .onRecv g id rfl rfl rfl rfl
  case loop g id hg => exact .quiet (fun _ _ => rfl) rfl (fun _ _ => rfl) (hfinds (g, id) rfl hg)
  all_goals exact .quiet (fun _ _ => rfl) rfl (fun _ _ => rfl) trivial

theorem Pc.calling_le (g : GroupID) (id : SessionID) (pc : Pc Buf) :
    pc.calling g id ≤ pc.inUpdate g := by
  cases pc with
  | onEnter g' id' | onLeave g' id' last =>
    change (if g' = g ∧ id' = id then 1 else 0) ≤ if some g' = some g then 1 else 0
    split
    · rename_i h
      rw [if_pos (by rw [h.1])]
    · exact Nat.zero_le _
  | _ => exact Nat.zero_le _

/-- The group's own thread makes the group's callbacks. -/
theorem Exclusive.total_calling {i : ℕ} {g : GroupID} (h : Exclusive w)
    (hpc : w.threads[i]? = some pc) (hhome : pc.home = some g) (id : SessionID) :
    w.total (Pc.calling g id) = pc.calling g id := by
  have hmem := List.mem_of_getElem? hpc
  have hle := Pool.total_add_le (w := w) (Pc.calling_le g id) hmem
  have hge := Pool.le_total (Pc.calling g id) hmem
  have hone : w.total (Pc.inUpdate g) ≤ 1 := by
    rw [h.running g]
    split <;> omega
  rw [show pc.inUpdate g = 1 from if_pos hhome] at hle
  omega

/-- What a thread goes by is about its own group. -/
theorem Pc.Tells.congr (h : pc.Tells s)
    (hs : ∀ g id, pc.home = some g → (id ∈ s'.sessions g ↔ id ∈ s.sessions g)) : pc.Tells s' := by
  cases pc with
  | onEnter g id | packet g id => exact (hs g id rfl).2 h
  | onLeave g id last => exact fun hin => h ((hs g id rfl).1 hin)
  | _ => trivial

/-- What each group has called for each session is in step with its
`_sessions`. -/
structure Heard (w : World Buf) : Prop where
  tells : ∀ pc ∈ w.threads, pc.Tells w.shared
  inside : ∀ g id, Told w g id → Inside g id (w.shared.heard g id)
  outside : ∀ g id, ¬Told w g id → Outside g id (w.shared.heard g id)

theorem Heard.initial [Inhabited Buf] (n : ℕ) : Heard (World.initial n : World Buf) := by
  have hidle := World.initial_idle Buf n
  refine ⟨fun q hq => ?_, fun g id htold => ?_, fun g id _ => ⟨[], by simp, rfl⟩⟩
  · rw [hidle q hq]
    trivial
  · have hzero : (World.initial n : World Buf).total (Pc.calling g id) = 0 :=
      Pool.total_of_forall_eq hidle rfl
    exact absurd (htold.2 hzero) (Finset.notMem_empty id)

theorem told_iff {i : ℕ} {g : GroupID} {id : SessionID} (hpc : w.threads[i]? = some pc)
    (ht : w'.threads = w.threads.set i pc')
    (hmem : id ∈ w'.shared.sessions g ↔ id ∈ w.shared.sessions g)
    (hcalling : pc'.calling g id = pc.calling g id) : Told w' g id ↔ Told w g id := by
  have hmove := Pool.total_step (e := (i, ())) (Pc.calling g id) hpc ht
  rw [hcalling] at hmove
  rw [Told, Told, hmem, Nat.add_right_cancel hmove]

/-- A step without a callback. -/
theorem Heard.of_silent (h : Heard w) (htells : ∀ pc ∈ w'.threads, pc.Tells w'.shared)
    (hheard : ∀ g id, w'.shared.heard g id = w.shared.heard g id)
    (htold : ∀ g id, Told w' g id ↔ Told w g id) : Heard w' := by
  refine ⟨htells, fun g id hin => ?_, fun g id hout => ?_⟩
  · rw [hheard]
    exact h.inside g id ((htold g id).1 hin)
  · rw [hheard]
    exact h.outside g id fun hin => hout ((htold g id).2 hin)

/-- A callback of one group about one session. -/
theorem heard_append {c : Callback} (hcallbacks : s'.callbacks = s.callbacks ++ [c]) (g : GroupID)
    (id : SessionID) : s'.heard g id = s.heard g id ++ if about g id c then [c] else [] := by
  rw [heard, heard, hcallbacks, List.filter_append, List.filter_singleton,
    Bool.cond_eq_ite]

/-- A step with one. -/
theorem Heard.of_call {c : Callback} {g : GroupID} {id : SessionID} (h : Heard w)
    (htells : ∀ pc ∈ w'.threads, pc.Tells w'.shared)
    (hcallbacks : w'.shared.callbacks = w.shared.callbacks ++ [c])
    (habout : ∀ g' id', about g' id' c = decide (g = g' ∧ id = id'))
    (hmiss : ∀ g' id', ¬(g = g' ∧ id = id') → (Told w' g' id' ↔ Told w g' id'))
    (hin : Told w' g id → Inside g id (w.shared.heard g id ++ [c]))
    (hout : ¬Told w' g id → Outside g id (w.shared.heard g id ++ [c])) : Heard w' := by
  have hheard (g' : GroupID) (id' : SessionID) : w'.shared.heard g' id' =
      w.shared.heard g' id' ++ if g = g' ∧ id = id' then [c] else [] := by
    rw [heard_append hcallbacks, habout]
    simp only [decide_eq_true_eq]
  refine ⟨htells, fun g' id' htold => ?_, fun g' id' htold => ?_⟩
  · rw [hheard]
    by_cases hhit : g = g' ∧ id = id'
    · obtain ⟨rfl, rfl⟩ := hhit
      rw [if_pos ⟨rfl, rfl⟩]
      exact hin htold
    · rw [if_neg hhit, List.append_nil]
      exact h.inside g' id' ((hmiss g' id' hhit).1 htold)
  · rw [hheard]
    by_cases hhit : g = g' ∧ id = id'
    · obtain ⟨rfl, rfl⟩ := hhit
      rw [if_pos ⟨rfl, rfl⟩]
      exact hout htold
    · rw [if_neg hhit, List.append_nil]
      exact h.outside g' id' fun hold => htold ((hmiss g' id' hhit).2 hold)

/-- The other threads, where a group's own thread changes its `_sessions`. -/
theorem Heard.tells_others {i j : ℕ} {g : GroupID} {q : Pc Buf} (h : Heard w) (hx : Exclusive w)
    (hpc : w.threads[i]? = some pc) (hhome : pc.home = some g) (hij : i ≠ j)
    (hq : w.threads[j]? = some q)
    (hs : ∀ g', g' ≠ g → w'.shared.sessions g' = w.shared.sessions g') : q.Tells w'.shared := by
  refine (h.tells q (List.mem_of_getElem? hq)).congr fun g' id hhome' => ?_
  rw [hs g' fun heq => hx.home_ne hpc hhome hij hq (heq ▸ hhome')]

/-- **Callbacks and `_sessions` stay in step**, where `RecvHandler` finds
members only. -/
theorem Heard.step {e : ℕ × Event Buf} (h : Heard w) (hm : Members index w)
    (hpc : w.threads[e.1]? = some pc) (ha : Action index w.shared pc e.2 w'.shared pc')
    (ht : w'.threads = w.threads.set e.1 pc') (hfinds : pc.FindsMember w.shared) : Heard w' := by
  have hx := hm.exclusive
  have hx' := hx.step hpc ha ht
  have hpc' : w'.threads[e.1]? = some pc' := by
    rw [ht, List.getElem?_set_self (List.getElem?_eq_some_iff.1 hpc).1]
  have hsame (hsessions : w'.shared.sessions = w.shared.sessions) (htells : pc'.Tells w'.shared) :
      ∀ q ∈ w'.threads, q.Tells w'.shared :=
    Pool.forall_threads ht (fun q hq => (h.tells q hq).congr fun g id _ => by rw [hsessions]) htells
  cases ha.calls hfinds with
  | quiet hheard hsessions hcalling htells =>
    exact h.of_silent (hsame hsessions htells) hheard fun g id =>
      told_iff hpc ht (by rw [hsessions]) (hcalling g id)
  | insert g id hold hnew hcallbacks hsessions =>
    subst hold hnew
    refine h.of_silent (Pool.forall_threads_of_others ht (fun j q hij hq => ?_) ?_)
      (fun g' id' => by rw [heard, heard, hcallbacks]) fun g' id' => ?_
    · refine h.tells_others hx hpc rfl hij hq fun g' hne => ?_
      rw [hsessions, Function.update_of_ne hne]
    · change id ∈ w'.shared.sessions g
      rw [hsessions, Function.update_self]
      exact Finset.mem_insert_self id _
    · by_cases hhit : g = g' ∧ id = id'
      · obtain ⟨rfl, rfl⟩ := hhit
        -- the job says that the session is not in the group yet
        have htodo : w.todo g id = true :: w.shared.jobs.flatMap (jobTodo g id) := by
          rw [World.todo, hx.todo_threads hpc rfl, Pc.todo, if_pos ⟨rfl, rfl⟩]
          rfl
        have hjobs := hm.jobs g id
        rw [htodo] at hjobs
        have hout : id ∉ w.shared.sessions g := fun hin => hjobs.1 (iff_of_true hin rfl)
        have hin : id ∈ w'.shared.sessions g := by
          rw [hsessions, Function.update_self]
          exact Finset.mem_insert_self id _
        rw [Told, Told, hx.total_calling hpc rfl, hx'.total_calling hpc' rfl]
        refine iff_of_false (fun hiff => ?_) fun hiff => hout (hiff.2 rfl)
        have hzero := hiff.1 hin
        rw [Pc.calling_onEnter] at hzero
        cases hzero
      · refine told_iff hpc ht ?_ (if_neg hhit)
        rw [hsessions]
        exact mem_enter_iff hhit
  | erase g id last hold hnew hin hcallbacks hsessions =>
    subst hold hnew
    have hout : id ∉ w'.shared.sessions g := by
      rw [hsessions, Function.update_self]
      exact Finset.notMem_erase id _
    refine h.of_silent (Pool.forall_threads_of_others ht (fun j q hij hq => ?_) hout)
      (fun g' id' => by rw [heard, heard, hcallbacks]) fun g' id' => ?_
    · refine h.tells_others hx hpc rfl hij hq fun g' hne => ?_
      rw [hsessions, Function.update_of_ne hne]
    · by_cases hhit : g = g' ∧ id = id'
      · obtain ⟨rfl, rfl⟩ := hhit
        rw [Told, Told, hx.total_calling hpc rfl, hx'.total_calling hpc' rfl, Pc.calling_onLeave]
        exact iff_of_true (iff_of_false hout Nat.one_ne_zero) (iff_of_true hin rfl)
      · refine told_iff hpc ht ?_ (if_neg hhit)
        rw [hsessions]
        exact mem_leave_iff hhit
  | onEnter g id hold hnew hcallbacks hsessions =>
    subst hold hnew
    have hin : id ∈ w.shared.sessions g := h.tells _ (List.mem_of_getElem? hpc)
    refine h.of_call (hsame hsessions trivial) hcallbacks (fun _ _ => rfl)
      (fun g' id' hmiss => told_iff hpc ht (by rw [hsessions]) (if_neg hmiss).symm)
      (fun _ => (h.outside g id fun hiff => ?_).enter) fun hout => absurd ?_ hout
    · have hzero := hiff.1 hin
      rw [hx.total_calling hpc rfl, Pc.calling_onEnter] at hzero
      cases hzero
    · rw [Told, hx'.total_calling hpc' rfl, hsessions]
      exact iff_of_true hin rfl
  | onLeave g id last hold hnew hcallbacks hsessions =>
    subst hold hnew
    have hout : id ∉ w.shared.sessions g := h.tells _ (List.mem_of_getElem? hpc)
    refine h.of_call (hsame hsessions trivial) hcallbacks (fun _ _ => rfl)
      (fun g' id' hmiss => told_iff hpc ht (by rw [hsessions]) (if_neg hmiss).symm)
      (fun htold => ?_) fun _ => (h.inside g id ?_).leave
    · rw [Told, hx'.total_calling hpc' rfl, hsessions] at htold
      exact absurd (htold.2 rfl) hout
    · rw [Told, hx.total_calling hpc rfl, Pc.calling_onLeave]
      exact iff_of_false hout Nat.one_ne_zero
  | onRecv g id hold hnew hcallbacks hsessions =>
    subst hold hnew
    have hin : id ∈ w.shared.sessions g := h.tells _ (List.mem_of_getElem? hpc)
    refine h.of_call (hsame hsessions trivial) hcallbacks (fun _ _ => rfl)
      (fun g' id' _ => told_iff hpc ht (by rw [hsessions]) rfl)
      (fun _ => (h.inside g id ?_).recv) fun hout => absurd ?_ hout
    · rw [Told, hx.total_calling hpc rfl]
      exact iff_of_true hin rfl
    · rw [Told, hx'.total_calling hpc' rfl, hsessions]
      exact iff_of_true hin rfl

/-! ## Moves one at a time -/

/-- Is the thread in `MoveSession`, up to the `Enter`? -/
def Pc.moving : Pc Buf → ℕ
  | .moveSrc _ _ | .moveLeave _ _ _ | .moveSetGroup _ _ | .moveEnter _ _ => 1
  | _ => 0

/-- A `MoveSession` is issued while no other is going on. -/
def Event.OneMove (w : World Buf) : Event Buf → Prop
  | .moveSession _ => w.total Pc.moving = 0
  | _ => True

instance decidableOneMove (w : World Buf) : (e : Event Buf) → Decidable (e.OneMove w)
  | .moveSession _ => inferInstanceAs (Decidable (_ = _))
  | .slot _ | .update _ | .found _ => inferInstanceAs (Decidable True)

/-- The moves of the session are issued one at a time. -/
def OneAtATime (w : World Buf) (e : ℕ × Event Buf) (_ : World Buf) : Prop := e.2.OneMove w

instance decidableOneAtATime (w : World Buf) (e : ℕ × Event Buf) (w' : World Buf) :
    Decidable (OneAtATime w e w') :=
  inferInstanceAs (Decidable (e.2.OneMove w))

/-- One call of `MoveSession` is going on, and the group it has read is the
session's. -/
structure OneMove (w : World Buf) : Prop where
  one : w.total Pc.moving ≤ 1
  source : ∀ id src dst, .moveLeave id src dst ∈ w.threads → src = w.shared.groupId

theorem OneMove.initial [Inhabited Buf] (n : ℕ) : OneMove (World.initial n : World Buf) := by
  have hidle := World.initial_idle Buf n
  refine ⟨?_, fun id src dst hmem => ?_⟩
  · rw [Pool.total_of_forall_eq hidle rfl]
    exact Nat.zero_le 1
  · cases hidle _ hmem

theorem Pc.moving_le (pc : Pc Buf) : pc.moving ≤ 1 := by
  cases pc <;> first | exact le_rfl | exact Nat.zero_le _

theorem Pc.between_le_moving (pc : Pc Buf) : pc.between ≤ pc.moving := by
  cases pc <;> first | exact le_rfl | exact Nat.zero_le _

/-- A call of `MoveSession` begins when it is issued. -/
theorem Action.moving {e : Event Buf} (h : Action index s pc e s' pc') :
    pc'.moving ≤ pc.moving ∨ ∃ dst, e = .moveSession dst := by
  cases h
  case slot home q q' ev r _ _ =>
    left
    unfold enter
    split <;> exact le_rfl
  case dequeue g job _ => cases job <;> exact .inl le_rfl
  case moveSession id dst => exact .inr ⟨dst, rfl⟩
  all_goals first | exact .inl le_rfl | exact .inl (Nat.zero_le _)

theorem Action.source {e : Event Buf} (h : Action index s pc e s' pc') {id : SessionID}
    {src dst : GroupID} (hnew : pc' = .moveLeave id src dst) : src = s'.groupId := by
  cases h
  case slot home q q' ev r _ _ =>
    unfold enter at hnew
    split at hnew <;> cases hnew
  case dequeue g job _ => cases job <;> cases hnew
  case moveFrom hg =>
    cases hnew
    rfl
  all_goals cases hnew

theorem OneMove.step {e : ℕ × Event Buf} (h : OneMove w) (hr : Releasing index w)
    (hpc : w.threads[e.1]? = some pc) (ha : Action index w.shared pc e.2 w'.shared pc')
    (ht : w'.threads = w.threads.set e.1 pc') (hone : e.2.OneMove w) : OneMove w' := by
  have hmove := Pool.total_step Pc.moving hpc ht
  have hle := h.one
  have hlone := pc'.moving_le
  refine ⟨?_, fun id src dst hmem => ?_⟩
  · rcases ha.moving with hsame | ⟨dst, he⟩
    · omega
    · rw [he] at hone
      change w.total Pc.moving = 0 at hone
      omega
  · refine Pool.forall_threads_of_others (P := fun q => q = .moveLeave id src dst →
      src = w'.shared.groupId) ht (fun j q hij hq heq => ?_) ha.source _ hmem rfl
    subst heq
    have hsrc := h.source id src dst (List.mem_of_getElem? hq)
    cases ha.names with
    | same hg | name _ hg => exact hsrc.trans hg.symm
    | move hold =>
      subst hold
      cases Pool.eq_zero_of_other hle hij hpc hq
    | reset hold =>
      subst hold
      have hzero := closed_eq_zero hr.sound (List.mem_of_getElem? hq) Nat.one_pos
      have hpos := closed_pos (List.mem_of_getElem? hpc) Nat.one_pos
      omega

/-- **Moves issued one at a time are apart.** -/
theorem OneMove.mayMove (h : OneMove w) (hmem : pc ∈ w.threads) : pc.MayMove w := by
  have hzero (hm : 0 < pc.moving) (hb : pc.between = 0) : w.total Pc.between = 0 := by
    have hle := Pool.total_add_le (w := w) Pc.between_le_moving hmem
    have := h.one
    omega
  cases pc with
  | moveSrc id dst => exact fun _ => hzero Nat.one_pos rfl
  | moveLeave id src dst => exact ⟨h.source id src dst hmem, hzero Nat.one_pos rfl⟩
  | _ => trivial

/-! ## `OnDisconnect` -/

/-- The session a `Leave` is about. -/
def jobLeaves : GroupJob → Option SessionID
  | .Leave id _ => some id
  | _ => none

/-- The session whose `Leave` is in the thread's hand, before `OnLeave`. -/
def Pc.leaves : Pc Buf → Option SessionID
  | .erase _ id _ | .onLeave _ id _ => some id
  | _ => none

/-- No `Leave` of the session is left in any group. -/
structure AllLeft (w : World Buf) (id : SessionID) : Prop where
  jobs : ∀ x ∈ w.shared.jobs, jobLeaves x.2 ≠ some id
  threads : ∀ q ∈ w.threads, q.leaves ≠ some id

instance decidableAllLeft (w : World Buf) (id : SessionID) : Decidable (AllLeft w id) :=
  decidable_of_iff ((∀ x ∈ w.shared.jobs, jobLeaves x.2 ≠ some id) ∧
    ∀ q ∈ w.threads, q.leaves ≠ some id) ⟨fun h => ⟨h.1, h.2⟩, fun h => ⟨h.jobs, h.threads⟩⟩

/-- Is the thread about to call `OnDisconnect`? -/
def Pc.disconnecting : Pc Buf → Bool
  | .slot _ .onDisconnect => true
  | _ => false

/-- `OnDisconnect` is called with no `Leave` of the session left. -/
def Pc.Parts (w : World Buf) (pc : Pc Buf) : Prop :=
  pc.disconnecting = true → AllLeft w w.shared.slot.sessionId

instance decidableParts (w : World Buf) (pc : Pc Buf) : Decidable (pc.Parts w) :=
  inferInstanceAs (Decidable (_ → _))

/-- A session disconnected has no `Leave` left, and heard of none since. -/
structure Parted (w : World Buf) : Prop where
  left : ∀ id ∈ w.shared.slot.disconnected, AllLeft w id
  called : ∀ id, .OnDisconnect id ∈ w.shared.callbacks → id ∈ w.shared.slot.disconnected
  order : w.shared.callbacks.Pairwise fun a b => ∀ id g, a = .OnDisconnect id → b ≠ .OnLeave g id

theorem Parted.initial [Inhabited Buf] (n : ℕ) : Parted (World.initial n : World Buf) :=
  ⟨fun _ hid => (List.not_mem_nil hid).elim, fun _ hid => (List.not_mem_nil hid).elim, .nil⟩

theorem Action.disconnected {e : Event Buf} (h : Action index s pc e s' pc') :
    s'.slot.disconnected = s.slot.disconnected ∨ (∃ home, pc = .slot home .onDisconnect) ∧
      s'.slot.disconnected = s.slot.disconnected ++ [s.slot.sessionId] := by
  cases h
  case slot home q q' ev r hnext _ =>
    cases Slot.next_ending hnext with
    | call hold _ _ hdis =>
      subst hold
      exact .inr ⟨⟨home, rfl⟩, hdis⟩
    | same _ _ hdis | post _ _ _ hdis | take _ _ _ hdis | clear _ _ _ hdis
    | giveBack _ _ _ hdis => exact .inl hdis
  all_goals exact .inl rfl

/-- One callback at a time. -/
theorem Action.callback {e : Event Buf} (h : Action index s pc e s' pc') :
    s'.callbacks = s.callbacks ∨ ∃ c, s'.callbacks = s.callbacks ++ [c] ∧
      (∀ id, c = .OnDisconnect id → id ∈ s'.slot.disconnected) ∧
      ∀ g id, c = .OnLeave g id → pc.leaves = some id := by
  cases h
  case slot home q q' ev r hnext _ =>
    by_cases hq : q = .onDisconnect
    · subst hq
      obtain ⟨rfl, rfl⟩ := Prod.mk.inj (Option.some.inj hnext)
      refine .inr ⟨.OnDisconnect s.slot.sessionId, rfl, fun id heq => ?_, fun g id heq => ?_⟩
      · obtain rfl := Callback.OnDisconnect.inj heq
        exact List.mem_append_right _ (List.mem_singleton_self _)
      · cases heq
    · left
      unfold observe
      split
      · exact absurd rfl hq
      · rfl
      · rfl
  case onEnter g id =>
    refine .inr ⟨.OnEnter g id, rfl, fun i heq => ?_, fun g' i heq => ?_⟩ <;> cases heq
  case onLeave g id last =>
    refine .inr ⟨.OnLeave g id, rfl, fun i heq => ?_, fun g' i heq => ?_⟩
    · cases heq
    · obtain ⟨rfl, rfl⟩ := Callback.OnLeave.inj heq
      rfl
  case packet g id =>
    refine .inr ⟨.OnRecv g id, rfl, fun i heq => ?_, fun g' i heq => ?_⟩ <;> cases heq
  all_goals exact .inl rfl

theorem Action.leaves {e : Event Buf} (h : Action index s pc e s' pc') {id : SessionID}
    (hl : pc'.leaves = some id) : pc.leaves = some id ∨ ∃ x ∈ s.jobs, jobLeaves x.2 = some id := by
  cases h
  case slot home q q' ev r _ _ =>
    unfold enter at hl
    split at hl <;> cases hl
  case dequeue g job hfind =>
    cases job with
    | Recv | Enter => cases hl
    | Leave i last => exact .inr ⟨_, List.mem_of_find?_eq_some hfind, hl⟩
  case erase => exact .inl hl
  all_goals cases hl

/-- A session that is held, or on its way to its last `Leave`, has not been
disconnected. -/
theorem not_disconnected (hr : Releasing index w) (htrail : Trail w) (hmem : pc ∈ w.threads)
    (hheld : 0 < pc.onSlot.pinned ∨ 0 < pc.onSlot.owed) :
    w.shared.slot.sessionId ∉ w.shared.slot.disconnected := by
  have hclosed : (Slot.life w.onSlot).closed = 0 := by
    rcases hheld with hpin | howed
    · exact closed_eq_zero hr.sound hmem hpin
    · have hone := hr.sound.counted.one
      have hle := owed_le Slot.Pc.owed hmem
      change Slot.Pc.owed pc.onSlot ≤ (Slot.life w.onSlot).owed at hle
      omega
  have hlog := hr.sound.logged
  rw [Lifecycle.Logged, if_pos hclosed] at hlog
  have haccepted : w.shared.slot.accepted =
      w.shared.slot.posted ++ [w.shared.slot.sessionId] := hlog
  intro hin
  have hposted : w.shared.slot.sessionId ∈ w.shared.slot.posted := by
    rw [htrail.posted]
    exact List.mem_append_left _ hin
  have hnodup := hr.sound.posted_once.1
  rw [show w.onSlot.shared.accepted = _ from haccepted] at hnodup
  exact (List.nodup_append.1 hnodup).2.2 _ hposted _ (List.mem_singleton_self _) rfl

theorem Parted.step {e : ℕ × Event Buf} (h : Parted w) (hr : Releasing index w) (htrail : Trail w)
    (hpc : w.threads[e.1]? = some pc) (ha : Action index w.shared pc e.2 w'.shared pc')
    (ht : w'.threads = w.threads.set e.1 pc') (hparts : pc.Parts w) : Parted w' := by
  have hmem := List.mem_of_getElem? hpc
  -- no `Leave` is queued for a session that has been disconnected
  have hkept (id : SessionID) (hleft : AllLeft w id)
      (hfresh : pc.queues ≠ none → id ≠ w.shared.slot.sessionId) : AllLeft w' id := by
    refine ⟨fun x hx heq => ?_, Pool.forall_threads ht hleft.threads fun heq => ?_⟩
    · obtain ⟨g, job⟩ := x
      cases job with
      | Recv | Enter => cases heq
      | Leave i last =>
        obtain rfl := Option.some.inj heq
        rcases ha.leave_jobs hx with hx | ⟨-, hid, j, dst, rfl⟩ | ⟨-, hid, home, k, rfl⟩
        · exact hleft.jobs _ hx rfl
        · exact hfresh (Option.some_ne_none _) hid
        · exact hfresh (Option.some_ne_none _) hid
    · rcases ha.leaves heq with hl | ⟨x, hx, hl⟩
      · exact hleft.threads pc hmem hl
      · exact hleft.jobs x hx hl
  have hqueues (hq : pc.queues ≠ none) :
      w.shared.slot.sessionId ∉ w.shared.slot.disconnected := by
    refine not_disconnected hr htrail hmem ?_
    obtain ⟨-, ⟨i, src, dst, rfl, -⟩ | ⟨i, dst, rfl, -⟩ | ⟨home, src, k, rfl, -⟩⟩ := ha.queue hq
    · exact .inl Nat.one_pos
    · exact .inl Nat.one_pos
    · exact .inr Nat.one_pos
  have hold (id : SessionID) (hid : id ∈ w.shared.slot.disconnected) : AllLeft w' id :=
    hkept id (h.left id hid) fun hq heq => hqueues hq (heq ▸ hid)
  have hsub : ∀ id ∈ w.shared.slot.disconnected, id ∈ w'.shared.slot.disconnected := by
    intro id hid
    rcases ha.disconnected with hsame | ⟨-, hmore⟩
    · rw [hsame]
      exact hid
    · rw [hmore]
      exact List.mem_append_left _ hid
  refine ⟨fun id hid => ?_, fun id hid => ?_, ?_⟩
  · rcases ha.disconnected with hsame | ⟨⟨home, rfl⟩, hmore⟩
    · exact hold id (hsame ▸ hid)
    · rw [hmore] at hid
      rcases List.mem_append.1 hid with hid | hid
      · exact hold id hid
      · obtain rfl := List.mem_singleton.1 hid
        exact hkept _ (hparts rfl) fun hq => absurd rfl hq
  · rcases ha.callback with hsame | ⟨c, hmore, hdis, -⟩
    · exact hsub id (h.called id (hsame ▸ hid))
    · rw [hmore] at hid
      rcases List.mem_append.1 hid with hid | hid
      · exact hsub id (h.called id hid)
      · exact hdis id (List.mem_singleton.1 hid).symm
  · rcases ha.callback with hsame | ⟨c, hmore, -, hleave⟩
    · rw [hsame]
      exact h.order
    · rw [hmore]
      refine List.pairwise_append.2
        ⟨h.order, List.pairwise_singleton _ _, fun a ha' b hb id g hid => ?_⟩
      subst hid
      obtain rfl := List.mem_singleton.1 hb
      exact fun heq => (h.left id (h.called id ha')).threads pc hmem (hleave g id heq)

/-! ## The callbacks of a run -/

/-- The moves of the session are issued one at a time; the session is released
with its earlier moves settled, and disconnected with no `Leave` left;
and `RecvHandler` finds members only. -/
structure Orderly (w : World Buf) (e : ℕ × Event Buf) (w' : World Buf) : Prop where
  oneMove : OneAtATime w e w'
  settled : Settled w e w'
  finds : ∀ pc ∈ w.threads[e.1]?, pc.FindsMember w.shared
  parts : ∀ pc ∈ w.threads[e.1]?, pc.Parts w

instance decidableOrderly (w : World Buf) (e : ℕ × Event Buf) (w' : World Buf) :
    Decidable (Orderly w e w') :=
  decidable_of_iff (OneAtATime w e w' ∧ Settled w e w' ∧
    (∀ pc ∈ w.threads[e.1]?, pc.FindsMember w.shared) ∧ ∀ pc ∈ w.threads[e.1]?, pc.Parts w)
    ⟨fun h => ⟨h.1, h.2.1, h.2.2.1, h.2.2.2⟩, fun h => ⟨h.oneMove, h.settled, h.finds, h.parts⟩⟩

/-- Every group's callbacks for a session are stays, and its `OnDisconnect`
comes after all of them. -/
structure CallbackProtocol (s : Grouped Buf) : Prop where
  protocol : ∀ g id, Protocol g id (s.heard g id)
  disconnect : s.callbacks.Pairwise fun a b =>
    ∀ id g, a = .OnDisconnect id → b ≠ .OnLeave g id

/-- **The callbacks of every session keep to the protocol**, in every run in
which `RecvHandler` finds members only and no `Leave` is left at
`OnDisconnect`. -/
theorem callbacks_in_order [Inhabited Buf] {n : ℕ}
    (h : Runs (Grouped.step index) Orderly (World.initial n : World Buf) w) :
    CallbackProtocol w.shared := by
  obtain ⟨-, -, -, hheard, hparted⟩ :
      Members index w ∧ OneMove w ∧ Trail w ∧ Heard w ∧ Parted w :=
    h.invariant (I := fun w => Members index w ∧ OneMove w ∧ Trail w ∧ Heard w ∧ Parted w)
      ⟨.initial n, .initial n, .initial n, .initial n, .initial n⟩
      fun ⟨hm, hone, htrail, hheard, hparted⟩ hst hok => by
        obtain ⟨pc, pc', hpc, hnext, ht⟩ := Pool.step_eq_some hst
        have ha := next_action hnext
        have hapart : Apart _ _ _ := ⟨hok.settled, fun q hq => by
          obtain rfl := Option.some.inj (hpc.symm.trans hq)
          exact hone.mayMove (List.mem_of_getElem? hpc)⟩
        exact ⟨hm.step hst hapart, hone.step hm.releasing hpc ha ht hok.oneMove,
          htrail.step hm.releasing hpc ha ht, hheard.step hm hpc ha ht (hok.finds pc hpc),
          hparted.step hm.releasing htrail hpc ha ht (hok.parts pc hpc)⟩
  refine ⟨fun g id => ?_, hparted.order⟩
  by_cases htold : Told w g id
  · exact (hheard.inside g id htold).protocol
  · exact (hheard.outside g id htold).protocol

/-- A receive completes, up to the `Recv` job. -/
def announcing : List (ℕ × Event ℕ) := (0, .slot .recvDone) :: going 0 5

/-- Thread 2 takes `n` steps in the `Update` of group 1. -/
def groupOne (n : ℕ) : List (ℕ × Event ℕ) := (2, .update 1) :: going 2 n

/-- A session moves to group 1, receives a packet there, moves back to the
base group, and ends. -/
def oneStay : List (ℕ × Event ℕ) :=
  accepting ++ moving 1 4 ++ announcing ++ going 0 2 ++ [(0, .slot (.result .pending))] ++
    going 0 1 ++ groupOne 8 ++ [(2, .found .packet)] ++ going 2 1 ++ [(2, .found .short)] ++
    going 2 3 ++ moving 0 4 ++ groupOne 6 ++ (0, .slot .recvFailed) :: going 0 4 ++ releasing

theorem callbacks_in_order_oneStay : ∃ w : World ℕ,
    exec (Grouped.step 7) (World.initial 3) oneStay = some w ∧ CallbackProtocol w.shared ∧
      w.shared.callbacks = [.OnEnter 1 ⟨1, 7⟩, .OnRecv 1 ⟨1, 7⟩, .OnLeave 1 ⟨1, 7⟩,
        .OnDisconnect ⟨1, 7⟩] := by
  obtain ⟨w, hw, hcallbacks⟩ := Option.map_eq_some_iff.1 (show
    (exec (Grouped.step 7) (World.initial 3) oneStay).map (fun w => w.shared.callbacks) =
    some [.OnEnter 1 ⟨1, 7⟩, .OnRecv 1 ⟨1, 7⟩, .OnLeave 1 ⟨1, 7⟩, .OnDisconnect ⟨1, 7⟩] by rfl)
  have hrun : Runs (Grouped.step 7) Orderly (World.initial 3) w :=
    runs_of_exec hw (by decide +kernel)
  exact ⟨w, hw, callbacks_in_order hrun, hcallbacks⟩

/-- A receive completes between `SetGroupID(1)` and the `Enter` of a move. -/
def recvFirst : List (ℕ × Event ℕ) :=
  accepting ++ calling 1 1 ++ going 1 2 ++ announcing ++ groupOne 5 ++ [(2, .found .packet)]

/-- A receive completes between the `Leave` of a move away and
`SetGroupID(2)`, and group 1 handles both jobs before that. -/
def recvLast : List (ℕ × Event ℕ) :=
  accepting ++ moving 1 4 ++ updating 1 5 ++ calling 1 2 ++ going 1 2 ++ announcing ++
    groupOne 12 ++ [(2, .found .packet)]

/-- A session moves back to the base group and ends before group 1 comes to
its `Leave`. -/
def leaveLast : List (ℕ × Event ℕ) :=
  accepting ++ moving 1 4 ++ updating 1 5 ++ moving 0 4 ++ (0, .slot .recvFailed) :: going 0 4 ++
    releasing ++ groupOne 3

/-- **Callbacks out of order**, with the moves one at a time: `OnRecv` before
`OnEnter`, where data arrive between `SetGroupID` and the `Enter`; `OnRecv`
after `OnLeave`, where they arrive between the `Leave` and `SetGroupID`; and
`OnDisconnect` before `OnLeave`, which the release from the base group does
not wait for. -/
theorem callbacks_out_of_order :
    (∃ w : World ℕ, exec (Grouped.step 7) (World.initial 3) recvFirst = some w ∧
      Runs (Grouped.step 7) OneAtATime (World.initial 3) w ∧
      w.shared.callbacks = [.OnRecv 1 ⟨1, 7⟩] ∧ ¬CallbackProtocol w.shared) ∧
    (∃ w : World ℕ, exec (Grouped.step 7) (World.initial 3) recvLast = some w ∧
      Runs (Grouped.step 7) OneAtATime (World.initial 3) w ∧
      w.shared.callbacks = [.OnEnter 1 ⟨1, 7⟩, .OnLeave 1 ⟨1, 7⟩, .OnRecv 1 ⟨1, 7⟩] ∧
      ¬CallbackProtocol w.shared) ∧
    ∃ w : World ℕ, exec (Grouped.step 7) (World.initial 3) leaveLast = some w ∧
      Runs (Grouped.step 7) OneAtATime (World.initial 3) w ∧
      w.shared.callbacks = [.OnEnter 1 ⟨1, 7⟩, .OnDisconnect ⟨1, 7⟩, .OnLeave 1 ⟨1, 7⟩] ∧
      ¬CallbackProtocol w.shared := by
  refine ⟨?_, ?_, ?_⟩
  · obtain ⟨w, hw, hcallbacks⟩ := Option.map_eq_some_iff.1 (show
      (exec (Grouped.step 7) (World.initial 3) recvFirst).map (fun w => w.shared.callbacks) =
      some [.OnRecv 1 ⟨1, 7⟩] by rfl)
    refine ⟨w, hw, runs_of_exec hw (by decide +kernel), hcallbacks, fun hc => ?_⟩
    have hkeeps := (hc.protocol 1 ⟨1, 7⟩).keeps
    rw [heard, hcallbacks] at hkeeps
    exact absurd hkeeps (by decide)
  · obtain ⟨w, hw, hcallbacks⟩ := Option.map_eq_some_iff.1 (show
      (exec (Grouped.step 7) (World.initial 3) recvLast).map (fun w => w.shared.callbacks) =
      some [.OnEnter 1 ⟨1, 7⟩, .OnLeave 1 ⟨1, 7⟩, .OnRecv 1 ⟨1, 7⟩] by rfl)
    refine ⟨w, hw, runs_of_exec hw (by decide +kernel), hcallbacks, fun hc => ?_⟩
    have hkeeps := (hc.protocol 1 ⟨1, 7⟩).keeps
    rw [heard, hcallbacks] at hkeeps
    exact absurd hkeeps (by decide)
  · obtain ⟨w, hw, hcallbacks⟩ := Option.map_eq_some_iff.1 (show
      (exec (Grouped.step 7) (World.initial 3) leaveLast).map (fun w => w.shared.callbacks) =
      some [.OnEnter 1 ⟨1, 7⟩, .OnDisconnect ⟨1, 7⟩, .OnLeave 1 ⟨1, 7⟩] by rfl)
    refine ⟨w, hw, runs_of_exec hw (by decide +kernel), hcallbacks, fun hc => ?_⟩
    have horder := hc.disconnect
    rw [hcallbacks] at horder
    obtain ⟨-, htail⟩ := List.pairwise_cons.1 horder
    exact (List.pairwise_cons.1 htail).1 _ List.mem_cons_self ⟨1, 7⟩ 1 rfl rfl

end Grouped

end NetLib
