import NetLib.Handles.Model
import NetLib.Slot.Kept
/-!
# What a step does to the counts

`Does` lists what an action is. Beside the server it moves at most one
reference of one buffer, together with the buffer's counter; on the server
the references stay what they are, since what a slot gives back is what the
thread has to release from then on.
-/

namespace NetLib

namespace Handles

open Slot

variable {s s' : Handles} {th th' : Thread} {e : Event} {x : ℕ}

/-! ## What an action is -/

/-- The call of `SendPacket` that an event of a slot is. -/
def sends : Slot.Event ℕ → Option ℕ
  | .sendPacket _ x | .sendPacketBlocking _ x => some x
  | _ => none

/-- An action of a thread. -/
inductive Does (s : Handles) (th : Thread) (e : Event) : Handles → Thread → Prop
  | construct (x : ℕ) (rest : List Todo) (htodo : th.todo = .construct x :: rest) :
      Does s th e { s.increaseRef x with handles := s.handles ++ [.holds x] }
        { th with todo := rest }
  | release (x : ℕ) (rest : List Todo) (htodo : th.todo = .release x :: rest) :
      Does s th e (s.decreaseRef x)
        { th with todo := if s.refCount x - 1 = 0 then .free x :: rest else rest }
  | free (x : ℕ) (rest : List Todo) (htodo : th.todo = .free x :: rest) :
      Does s th e { s with pool := x :: s.pool } { th with todo := rest }
  | increase (x : ℕ) (c : Sender) (h : ℕ) (htodo : th.todo = []) (hlent : th.lent = some h)
      (hpc : th.onServer.2 = .enqTicket x c) :
      Does s th e (s.increaseRef x) { th with lent := none }
  | reuse (x : ℕ) (htodo : th.todo = []) (hmem : x ∈ s.pool) :
      Does s th e { s with pool := s.pool.erase x } { th with todo := [.construct x] }
  | fresh (htodo : th.todo = []) :
      Does s th e { s with constructed := s.constructed + 1 }
        { th with todo := [.construct s.constructed] }
  | copy (h x : ℕ) (hh : s.handles[h]? = some (.holds x)) :
      Does s th e { s.increaseRef x with handles := s.handles ++ [.holds x] } th
  | arrange (handles : List Handle)
      (hcount : ∀ x, handles.count (.holds x) = s.handles.count (.holds x))
      (hother : ∀ h b, h ∉ e.changes → s.handles[h]? = some b → handles[h]? = some b) :
      Does s th e { s with handles := handles } th
  | destroy (h x : ℕ) (htodo : th.todo = []) (hh : s.handles[h]? = some (.holds x))
      (hchanges : h ∈ e.changes) :
      Does s th e { s with handles := s.handles.set h .destroyed } { th with todo := [.release x] }

/-- An action on the server, with the handle that is lent to `SendPacket`
while it runs. -/
inductive Serves (s : Handles) (th : Thread) : Handles → Thread → Prop
  | serve (lent : Option ℕ) (index : ℕ) (ev : Slot.Event ℕ) (server : Server ℕ) (k : ℕ)
      (pc : Pc ℕ) (htodo : th.todo = []) (hserved : th.onServer.2.brings ≠ [] → th.lent = none)
      (hlent : lent = th.lent ∧ (th.onServer.2 = .idle → sends ev = none) ∨
        ∃ h x, lent = some h ∧ sends ev = some x ∧ th.onServer.2 = .idle ∧
          s.handles[h]? = some (.holds x))
      (hnext : Server.next s.server th.onServer (index, ev) = some (server, k, pc)) :
      Serves s th { s with server := server }
        { onServer := (k, pc)
          lent := if pc.argument = none then none else lent
          todo := (gives (s.server.sessions k) th.onServer.2 (server.sessions k)).map .release }

theorem count_set {l : List Handle} {h : ℕ} {a b c : Handle} (hh : l[h]? = some a) :
    (l.set h b).count c + [a].count c = l.count c + [b].count c := by
  induction l generalizing h with
  | nil => cases hh
  | cons y l ih =>
    cases h with
    | zero =>
      obtain rfl : y = a := by simpa using hh
      simp only [List.set_cons_zero, List.count_cons, List.count_nil]
      omega
    | succ h =>
      have := ih (by simpa using hh)
      simp only [List.set_cons_succ, List.count_cons] at this ⊢
      omega

theorem serve_serves {lent : Option ℕ} {index : ℕ} {ev : Slot.Event ℕ} (htodo : th.todo = [])
    (hserved : th.onServer.2.brings ≠ [] → th.lent = none)
    (hlent : lent = th.lent ∧ (th.onServer.2 = .idle → sends ev = none) ∨
      ∃ h x, lent = some h ∧ sends ev = some x ∧ th.onServer.2 = .idle ∧
        s.handles[h]? = some (.holds x))
    (hs : s.serve { th with lent := lent } (index, ev) = some (s', th')) : Serves s th s' th' := by
  obtain ⟨⟨server, k, pc⟩, hnext, heq⟩ := Option.map_eq_some_iff.1 hs
  obtain ⟨rfl, rfl⟩ := Prod.mk.inj heq
  exact .serve lent index ev server k pc htodo hserved hlent hnext

theorem start_does (h : s.start th e = some (s', th')) (htodo : th.todo = [])
    (hidle : th.onServer.2 = .idle) : Does s th e s' th' ∨ Serves s th s' th' := by
  have hbrings : th.onServer.2.brings ≠ [] → th.lent = none := by simp [hidle, Pc.brings]
  cases e with
  | alloc x =>
    simp only [start] at h
    split at h
    · obtain ⟨rfl, rfl⟩ := Prod.mk.inj (Option.some.inj h)
      exact .inl (.reuse x htodo (by assumption))
    · split at h
      · rename_i hx
        subst hx
        obtain ⟨rfl, rfl⟩ := Prod.mk.inj (Option.some.inj h)
        exact .inl (.fresh htodo)
      · cases h
  | copy k =>
    simp only [start] at h
    split at h
    · obtain ⟨rfl, rfl⟩ := Prod.mk.inj (Option.some.inj h)
      exact .inl (.copy k _ (by assumption))
    · cases h
  | move k =>
    simp only [start] at h
    split at h
    · cases h
    · cases h
    · rename_i b hnot hb
      obtain ⟨rfl, rfl⟩ := Prod.mk.inj (Option.some.inj h)
      refine .inl (.arrange _ (fun x => ?_) fun i c hi hc => ?_)
      · have := count_set (b := .null) (c := .holds x) hb
        rw [List.count_append]
        simp only [List.count_cons, List.count_nil] at this ⊢
        simpa using this
      · have hne : k ≠ i := fun heq => hi (by simp [Event.changes, heq])
        rw [List.getElem?_append_left, List.getElem?_set_ne hne, hc]
        rw [List.length_set]
        exact (List.getElem?_eq_some_iff.1 hc).1
  | swap k m =>
    simp only [start] at h
    split at h
    all_goals try cases h
    rename_i a b hk hm ha hb
    refine .inl (.arrange _ (fun x => ?_) fun i c hi hc => ?_)
    · have hlt := (List.getElem?_eq_some_iff.1 ha).1
      have hset := count_set (b := b) (c := .holds x) ha
      by_cases hkm : k = m
      · subst hkm
        obtain rfl : a = b := Option.some.inj (ha.symm.trans hb)
        rw [List.set_set]
        omega
      · have hset' := count_set (l := s.handles.set k b) (b := a) (c := .holds x)
          (a := b) (h := m) (by rw [List.getElem?_set_ne hkm, hb])
        omega
    · simp only [Event.changes, List.mem_cons, List.not_mem_nil, or_false, not_or] at hi
      rw [List.getElem?_set_ne (Ne.symm hi.2), List.getElem?_set_ne (Ne.symm hi.1), hc]
  | destroy k =>
    simp only [start] at h
    split at h
    · obtain ⟨rfl, rfl⟩ := Prod.mk.inj (Option.some.inj h)
      exact .inl (.destroy k _ htodo (by assumption) (by simp [Event.changes]))
    · rename_i hk
      obtain ⟨rfl, rfl⟩ := Prod.mk.inj (Option.some.inj h)
      refine .inl (.arrange _ (fun x => ?_) fun i c hi hc => ?_)
      · simpa using count_set (b := .destroyed) (c := .holds x) hk
      · have hne : k ≠ i := fun heq => hi (by simp [Event.changes, heq])
        rw [List.getElem?_set_ne hne, hc]
    · cases h
  | sendPacket id k | sendPacketBlocking id k =>
    simp only [start] at h
    split at h
    · exact .inr (serve_serves htodo hbrings (.inr ⟨k, _, rfl, rfl, hidle, by assumption⟩) h)
    · cases h
  | server index ev =>
    cases ev <;> simp only [start, reduceCtorEq] at h <;>
      exact .inr (serve_serves htodo hbrings (.inl ⟨rfl, fun _ => rfl⟩) h)

/-- **What an action is.** -/
theorem next_does (h : next s th e = some (s', th')) :
    Does s th e s' th' ∨ Serves s th s' th' := by
  unfold next at h
  split at h
  · rename_i op rest htodo
    cases op <;> obtain ⟨rfl, rfl⟩ := Prod.mk.inj (Option.some.inj h)
    · exact .inl (.construct _ rest htodo)
    · exact .inl (.release _ rest htodo)
    · exact .inl (.free _ rest htodo)
  · rename_i k x c htodo hlent hpc
    obtain ⟨rfl, rfl⟩ := Prod.mk.inj (Option.some.inj h)
    exact .inl (.increase x c k htodo hlent hpc)
  · rename_i htodo hidle
    exact start_does h htodo hidle
  · rename_i htodo hidle hticket
    split at h
    · refine .inr (serve_serves htodo (fun hbrings => ?_)
        (.inl ⟨rfl, fun hpc => (hidle hpc).elim⟩) h)
      cases hlent : th.lent with
      | none => rfl
      | some k =>
        cases hpc : th.onServer.2 with
        | enqTicket x c => exact (hticket k x c hlent hpc).elim
        | _ => exact absurd (congrArg Pc.brings hpc) hbrings
    · cases h

/-! ## The server below -/

/-- What does not concern the server leaves it as it is. -/
theorem onServer_eq {w w' : World} {t : ℕ} (hth : w.threads[t]? = some th)
    (ht : w'.threads = w.threads.set t th') (hserver : w'.shared.server = w.shared.server)
    (hon : th'.onServer = th.onServer) : w'.onServer = w.onServer := by
  obtain ⟨hlt, hget⟩ := List.getElem?_eq_some_iff.1 hth
  rw [World.onServer, World.onServer, hserver, ht, List.map_set, hon, ← hget, ← List.map_set,
    List.set_getElem_self]

/-- An action on the server is a step of the server. -/
theorem onServer_step {w w' : World} {t k : ℕ} {pc : Pc ℕ} {ev : ℕ × Slot.Event ℕ}
    (hth : w.threads[t]? = some th) (ht : w'.threads = w.threads.set t th')
    (hnext : Server.next w.shared.server th.onServer ev = some (w'.shared.server, k, pc))
    (hon : th'.onServer = (k, pc)) : Server.step w.onServer (t, ev) = some w'.onServer := by
  simp only [Server.step, Pool.step, World.onServer, List.getElem?_map, hth, Option.map_some,
    hnext, ht, List.map_set, hon]

@[simp] theorem argument_after (k : After) : (k.pc : Pc ℕ).argument = none := by cases k <;> rfl

@[simp] theorem argument_canSend (c : Sender) : (c.canSend : Pc ℕ).argument = none := by
  cases c <;> rfl

section Argument

variable {s s' : Slot ℕ} {index : ℕ} {pc pc' : Pc ℕ} {ev : Slot.Event ℕ}

theorem nextRef_argument (h : nextRef s pc = some (s', pc')) (harg : pc'.argument = some x) :
    pc.argument = some x ∧ pc.draws = false := by
  cases pc <;> simp only [nextRef, Option.some.injEq, Prod.mk.injEq, reduceCtorEq] at h
  case find id use =>
    obtain ⟨rfl, rfl⟩ := h
    exact ⟨by cases use <;> exact harg, rfl⟩
  case findCheck id result use =>
    split at h <;> obtain ⟨rfl, rfl⟩ := h
    · cases harg
    · exact ⟨by cases use <;> exact harg, rfl⟩
  case release pin k =>
    obtain ⟨rfl, rfl⟩ := h
    split at harg
    · cases harg
    · simp at harg
  case releaseCas k =>
    split at h <;> obtain ⟨rfl, rfl⟩ := h
    · cases harg
    · simp at harg
  case postRelease k =>
    obtain ⟨rfl, rfl⟩ := h
    simp at harg
  case holding | close | cancel =>
    obtain ⟨rfl, rfl⟩ := h
    cases harg

theorem nextSend_argument (h : nextSend s pc = some (s', pc')) : pc'.argument = none := by
  cases pc <;> simp only [nextSend, Option.some.injEq, Prod.mk.injEq, reduceCtorEq] at h
  case enqLoad | canExchange =>
    split at h <;> obtain ⟨rfl, rfl⟩ := h <;> rfl
  case enqPublish =>
    split at h
    · cases h
    · obtain ⟨rfl, rfl⟩ := Option.some.inj h
      rfl
  case canConnect | canRef =>
    obtain ⟨rfl, rfl⟩ := h
    split <;> rfl
  case canTail c first head =>
    split at h <;> obtain ⟨rfl, rfl⟩ := h <;> cases first
    · rfl
    · rfl
    · exact argument_canSend c
    · rfl
  case enqTicket | enqPut | enqFull | canHead | canClear | postSendExecutable =>
    obtain ⟨rfl, rfl⟩ := h
    rfl

theorem nextRealSend_argument (h : nextRealSend s pc ev = some (s', pc')) :
    pc'.argument = none := by
  cases pc <;> simp only [nextRealSend, Option.some.injEq, Prod.mk.injEq, reduceCtorEq] at h
  case realSendCheck =>
    obtain ⟨rfl, rfl⟩ := h
    split <;> rfl
  case realSendTail =>
    split at h
    · cases h
    · obtain ⟨rfl, rfl⟩ := Option.some.inj h
      rfl
  case wsaSend c bufs =>
    cases ev <;> simp only [reduceCtorEq] at h
    split at h <;> obtain ⟨rfl, rfl⟩ := Option.some.inj h
    · rfl
    · exact argument_after c.after
  case deqLoad d head =>
    obtain ⟨rfl, rfl⟩ := h
    split
    · rfl
    · rcases d with ⟨_, _ | _⟩ | _ <;> rfl
  case deqCas =>
    split at h <;> obtain ⟨rfl, rfl⟩ := h <;> rfl
  case deqClear d head y =>
    split at h
    · cases d <;> obtain ⟨rfl, rfl⟩ := Option.some.inj h
      · split <;> rfl
      · rfl
    · cases h
  case postSendRelease i =>
    split at h
    · obtain ⟨y, -, hb⟩ := Option.map_eq_some_iff.1 h
      obtain ⟨rfl, rfl⟩ := hb
      rfl
    · obtain ⟨rfl, rfl⟩ := Option.some.inj h
      rfl
  case realSend | realSendHead | realSendStore | deqHead | deqData | postSendClear =>
    obtain ⟨rfl, rfl⟩ := h
    rfl

theorem nextLife_argument (h : nextLife index s pc ev = some (s', pc')) :
    pc'.argument = none := by
  cases pc <;> simp only [nextLife, Option.some.injEq, Prod.mk.injEq, reduceCtorEq] at h
  case recvExecute =>
    cases ev <;> simp only [reduceCtorEq] at h <;> obtain ⟨rfl, rfl⟩ := Option.some.inj h <;> rfl
  case wsaRecv =>
    cases ev with
    | result r => cases r <;> obtain ⟨rfl, rfl⟩ := Option.some.inj h <;> rfl
    | _ => cases h
  case recvRef | recvConnect | recvRecheck | timeoutRef =>
    obtain ⟨rfl, rfl⟩ := h
    split <;> rfl
  case resetSending r =>
    obtain ⟨rfl, rfl⟩ := h
    cases r <;> rfl
  all_goals
    obtain ⟨rfl, rfl⟩ := h
    rfl

theorem start_argument (h : Slot.start index s ev = some (s', pc')) (harg : pc'.argument = some x) :
    sends ev = some x := by
  cases ev <;> simp only [Slot.start, Option.some.injEq, Prod.mk.injEq, reduceCtorEq,
    Option.ite_none_right_eq_some] at h
  case sendPacket | sendPacketBlocking =>
    obtain ⟨rfl, rfl⟩ := h
    exact harg
  case sendExecutable =>
    split at h
    · cases h
    · obtain ⟨rfl, rfl⟩ := Option.some.inj h
      cases harg
  case hold | disconnect | timeout =>
    obtain ⟨rfl, rfl⟩ := h
    cases harg
  all_goals
    obtain ⟨-, rfl, rfl⟩ := h
    cases harg

/-- A buffer that `SendPacket` is called with comes from its call. -/
theorem slot_argument (h : Slot.next index s pc ev = some (s', pc'))
    (harg : pc'.argument = some x) :
    pc.argument = some x ∧ pc.draws = false ∨ pc = .idle ∧ sends ev = some x := by
  unfold Slot.next at h
  split at h
  · exact .inr ⟨rfl, start_argument h harg⟩
  all_goals first
    | exact .inl (nextRef_argument h harg)
    | exact absurd (nextSend_argument h) (by simp [harg])
    | exact absurd (nextRealSend_argument h) (by simp [harg])
    | exact absurd (nextLife_argument h) (by simp [harg])

end Argument

section Argument

variable {s s' : Server ℕ} {at' : ℕ × Pc ℕ} {j idx : ℕ} {pc : Pc ℕ} {ev : Slot.Event ℕ}

theorem server_start_argument (h : s.start idx ev = some (s', at'))
    (harg : at'.2.argument = some x) : sends ev = some x := by
  have hmap {index : ℕ} {f : Slot ℕ × Pc ℕ → Server ℕ × ℕ × Pc ℕ} {ev : Slot.Event ℕ}
      (hf : ∀ r, (f r).2.2 = r.2)
      (h : (Slot.start index (s.sessions index) ev).map f = some (s', at')) :
      sends ev = some x := by
    obtain ⟨r, hr, heq⟩ := Option.map_eq_some_iff.1 h
    have hpc : r.2 = at'.2 := by rw [← hf r, heq]
    exact start_argument hr (hpc.symm ▸ harg)
  unfold Server.start at h
  split at h
  · split at h
    · cases h
      cases harg
    · exact hmap (fun _ => rfl) h
  · split at h
    · split at h
      · cases h
      · cases hmap (fun _ => rfl) h
    · split at h
      · cases h
      · exact hmap (fun _ => rfl) h

theorem server_argument (h : Server.next s (j, pc) (idx, ev) = some (s', at'))
    (harg : at'.2.argument = some x) :
    pc.argument = some x ∧ pc.draws = false ∨ pc = .idle ∧ sends ev = some x := by
  have hmap {index : ℕ} {f : Slot ℕ × Pc ℕ → Server ℕ × ℕ × Pc ℕ}
      (hf : ∀ r, (f r).2.2 = r.2)
      (h : (Slot.next index (s.sessions index) pc ev).map f = some (s', at')) :
      pc.argument = some x ∧ pc.draws = false ∨ pc = .idle ∧ sends ev = some x := by
    obtain ⟨r, hr, heq⟩ := Option.map_eq_some_iff.1 h
    have hpc : r.2 = at'.2 := by rw [← hf r, heq]
    exact slot_argument hr (hpc.symm ▸ harg)
  unfold Server.next at h
  split at h
  · rename_i heq he
    cases heq
    cases he
    exact .inr ⟨rfl, server_start_argument h harg⟩
  · rename_i heq he
    cases heq
    cases he
    exact hmap (fun _ => rfl) h
  · rename_i heq he
    cases heq
    cases he
    exact hmap (fun _ => rfl) h

end Argument

/-- A sum in which one term changes. -/
theorem sum_of_one {f f' : ℕ → ℕ} {k n a b : ℕ} (hk : k < n) (hsame : ∀ i, i ≠ k → f' i = f i)
    (h : f' k + a = f k + b) :
    ∑ i ∈ Finset.range n, f' i + a = ∑ i ∈ Finset.range n, f i + b := by
  have hmem : k ∈ Finset.range n := Finset.mem_range.2 hk
  have hrest : ∑ i ∈ (Finset.range n).erase k, f' i = ∑ i ∈ (Finset.range n).erase k, f i :=
    Finset.sum_congr rfl fun i hi => hsame i (Finset.ne_of_mem_erase hi)
  rw [← Finset.add_sum_erase _ _ hmem, ← Finset.add_sum_erase _ _ hmem, hrest]
  omega

theorem proper_idle (w : Slot.World ℕ) : Proper w .idle :=
  ⟨fun h => absurd h (by decide), fun h => absurd h (by decide)⟩

section Serve

variable {w w' : Server.World ℕ} {t j k : ℕ} {pc pc' : Pc ℕ} {ev : ℕ × Slot.Event ℕ}

/-- **An action of the server, slot by slot.** The slots stay as they should
be, and between them and the thread no reference is lost. -/
theorem serve_slots (hs : Server.AllSound w) (hkept : ∀ i, Slot.Kept (w.slot i))
    (hth : w.threads[t]? = some (j, pc)) (ht : w'.threads = w.threads.set t (k, pc'))
    (hnext : Server.next w.shared (j, pc) ev = some (w'.shared, k, pc'))
    (hproper : Proper (w.slot j) pc) :
    (∀ i, Slot.Kept (w'.slot i)) ∧ ∀ x, ∑ i ∈ Finset.range MAX_SESSIONS,
        Slot.references (w'.slot i) x +
          (gives (w.shared.sessions k) pc (w'.shared.sessions k)).count x =
      ∑ i ∈ Finset.range MAX_SESSIONS, Slot.references (w.slot i) x + pc.brings.count x := by
  obtain ⟨idx, ev⟩ := ev
  rcases Server.next_acts hnext with ⟨heq, rfl, rfl⟩ | ⟨e, r, hslot, hsessions, hwhere, -⟩
  · -- the id was out of range
    have hsame (i : ℕ) : w'.slot i = w.slot i :=
      Server.slot_other hth ht (by rw [heq]) (by simp [Server.onSlot])
    refine ⟨fun i => hsame i ▸ hkept i, fun x => ?_⟩
    simp only [hsame]
    rw [heq, gives_of_eq rfl rfl]
    rfl
  · have hr : w'.shared.sessions k = r := by rw [hsessions, Function.update_self]
    have hon : Server.onSlot k (j, pc) = pc := by
      rcases hwhere with ⟨rfl, -⟩ | ⟨-, rfl⟩ <;> simp [Server.onSlot]
    have hother (i : ℕ) (hik : i ≠ k) : w'.slot i = w.slot i := by
      have hon' : Server.onSlot i (k, pc') = Server.onSlot i (j, pc) := by
        rcases hwhere with ⟨rfl, -⟩ | ⟨-, rfl⟩ <;> simp [Server.onSlot, Ne.symm hik]
      exact Server.slot_other hth ht (by rw [hsessions, Function.update_of_ne hik]) hon'
    have hpc : (w.slot k).threads[(t, e).1]? = some pc := by
      rw [Server.World.slot, List.getElem?_map, hth, Option.map_some, hon]
    have htk : (w'.slot k).threads = (w.slot k).threads.set (t, e).1 pc' := by
      simp only [Server.World.slot, ht, List.map_set]
      simp [Server.onSlot]
    have hm : Moves (w.slot k).shared pc (w'.slot k).shared pc' := by
      simp only [Server.World.slot, hr]
      exact next_moves hslot
    have hpk : Proper (w.slot k) pc := by
      rcases hwhere with ⟨rfl, -⟩ | ⟨-, rfl⟩
      · exact proper_idle _
      · exact hproper
    have hk : k < MAX_SESSIONS := by
      rcases hwhere with ⟨-, hk | hk⟩ | ⟨hne, rfl⟩
      · exact hk
      · exact hs.inRange k hk
      · exact hs.threads _ (List.mem_of_getElem? hth) hne
    constructor
    · intro i
      by_cases hik : i = k
      · subst hik
        exact (hkept i).step (hs.slots i) hpc htk hpk hm
      · exact hother i hik ▸ hkept i
    · intro x
      refine sum_of_one hk (fun i hik => by rw [hother i hik]) ?_
      exact (hkept k).references_step (hs.slots k) hpc htk hm x

end Serve

/-! ## Handles that were passed on -/

/-- The handle that `SendPacket` was called with holds the buffer until
`ProcessBuffer` has its reference. -/
def Thread.Lends (s : Handles) (th : Thread) : Prop :=
  (∀ h, th.lent = some h →
    ∃ x, th.onServer.2.argument = some x ∧ s.handles[h]? = some (.holds x)) ∧
  (th.lent = none → ∀ x, th.onServer.2.argument = some x → th.onServer.2.draws = true)

/-- A handle that the event does not change stays. -/
theorem Does.handles (h : Does s th e s' th') {k : ℕ} {b : Handle} (hk : k ∉ e.changes)
    (hb : s.handles[k]? = some b) : s'.handles[k]? = some b := by
  have hlt := (List.getElem?_eq_some_iff.1 hb).1
  cases h with
  | construct | copy => exact (List.getElem?_append_left hlt).trans hb
  | arrange handles _ hother => exact hother k b hk hb
  | destroy i x htodo hi hchanges =>
    have hne : i ≠ k := fun heq => hk (heq ▸ hchanges)
    exact (List.getElem?_set_ne hne).trans hb
  | _ => exact hb

theorem Thread.Lends.congr (h : th.Lends s) (hlent : th'.lent = th.lent)
    (hon : th'.onServer = th.onServer)
    (hkeep : ∀ k b, th.lent = some k → s.handles[k]? = some b → s'.handles[k]? = some b) :
    th'.Lends s' := by
  rw [Lends, hlent, hon]
  refine ⟨fun k hk => ?_, h.2⟩
  obtain ⟨x, hx, hb⟩ := h.1 k hk
  exact ⟨x, hx, hkeep k _ hk hb⟩

theorem Does.lends (h : Does s th e s' th') (hl : th.Lends s)
    (hkeep : ∀ k, th.lent = some k → k ∉ e.changes) : th'.Lends s' := by
  have hsame (hlent : th'.lent = th.lent) (hon : th'.onServer = th.onServer) : th'.Lends s' :=
    hl.congr hlent hon fun k b hk hb => h.handles (hkeep k hk) hb
  cases h with
  | increase x c k htodo hlent hpc =>
    refine ⟨fun _ hk => (by cases hk), fun _ y _ => ?_⟩
    rw [hpc]
    rfl
  | _ => exact hsame rfl rfl

theorem Serves.handles (h : Serves s th s' th') {k : ℕ} {b : Handle} (hb : s.handles[k]? = some b) :
    s'.handles[k]? = some b := by
  cases h
  exact hb

/-- While a call of `SendPacket` goes on, its handle is lent. -/
theorem lent_of_argument {lent : Option ℕ} {index k : ℕ} {ev : Slot.Event ℕ} {server : Server ℕ}
    {pc : Pc ℕ} (hl : th.Lends s)
    (hlent : lent = th.lent ∧ (th.onServer.2 = .idle → sends ev = none) ∨
      ∃ h x, lent = some h ∧ sends ev = some x ∧ th.onServer.2 = .idle ∧
        s.handles[h]? = some (.holds x))
    (hnext : Server.next s.server th.onServer (index, ev) = some (server, k, pc))
    (harg : pc.argument = some x) : ∃ m, lent = some m ∧ s.handles[m]? = some (.holds x) := by
  have hfrom := server_argument hnext harg
  rcases hlent with ⟨hlent, hidle⟩ | ⟨m, y, hm, hy, hidle, hb⟩
  · rcases hfrom with ⟨hpc, hdraws⟩ | ⟨hpc, hsends⟩
    · cases hm : th.lent with
      | none =>
        rw [hl.2 hm x hpc] at hdraws
        cases hdraws
      | some m =>
        obtain ⟨y, hy, hb⟩ := hl.1 m hm
        obtain rfl : x = y := Option.some.inj (hpc.symm.trans hy)
        exact ⟨m, hlent.trans hm, hb⟩
    · cases (hidle hpc).symm.trans hsends
  · rcases hfrom with ⟨hpc, -⟩ | ⟨-, hsends⟩
    · rw [hidle] at hpc
      cases hpc
    · obtain rfl : x = y := Option.some.inj (hsends.symm.trans hy)
      exact ⟨m, hm, hb⟩

theorem Serves.lends (h : Serves s th s' th') (hl : th.Lends s) : th'.Lends s' := by
  cases h with
  | serve lent index ev server k pc htodo hserved hlent hnext =>
    rcases Option.eq_none_or_eq_some pc.argument with harg | ⟨x, harg⟩
    · refine ⟨fun m hm => ?_, fun _ x hx => ?_⟩
      · cases (if_pos harg).symm.trans hm
      · cases harg.symm.trans hx
    · have hlent' : (if pc.argument = none then none else lent) = lent := if_neg (by simp [harg])
      obtain ⟨m, hm, hb⟩ := lent_of_argument hl hlent hnext harg
      refine ⟨fun i hi => ?_, fun hnone => ?_⟩
      · obtain rfl : m = i := Option.some.inj (hm.symm.trans (hlent'.symm.trans hi))
        exact ⟨x, harg, hb⟩
      · cases hm.symm.trans (hlent'.symm.trans hnone)

/-! ## The books of a buffer -/

/-- How often the buffer is in `_pool`, or on its way. -/
def World.stock (w : World) (x : ℕ) : ℕ := w.shared.pool.count x + w.total (Thread.moving x)

/-- What a step does with a buffer that has `r` references and is `p` times
in stock. -/
inductive Booked (s s' : Handles) (x r p r' p' : ℕ) : Prop
  /-- Its references go from place to place, or it goes from `_pool` to a
  thread or back. -/
  | same (hr : r' = r) (hc : s'.refCount x = s.refCount x)
      (hp : p' + (if x < s.constructed then 1 else 0) = p + if x < s'.constructed then 1 else 0)
  /-- A reference is taken: of a buffer that has one, or the first. -/
  | more (hr : r' = r + 1) (hc : s'.refCount x = s.refCount x + 1)
      (hn : s'.constructed = s.constructed) (hp : p' = p ∧ 0 < r ∨ p' + 1 = p)
  /-- A reference is given back. -/
  | fewer (hr : r' + 1 = r) (hc : s'.refCount x = s.refCount x - 1)
      (hn : s'.constructed = s.constructed)
      (hp : p' = p + if s.refCount x - 1 = 0 then 1 else 0)

theorem Booked.keep {r p r' p' : ℕ} (hr : r' = r) (hc : s'.refCount x = s.refCount x)
    (hn : s'.constructed = s.constructed) (hp : p' = p) : Booked s s' x r p r' p' :=
  .same hr hc (by rw [hn, hp])

section Books

variable {w w' : World} {t : ℕ}

/-- The references over a step that is not on the server. -/
theorem references_step (hth : w.threads[t]? = some th) (ht : w'.threads = w.threads.set t th')
    (hon : w'.onServer = w.onServer) (x : ℕ) :
    w'.references x + w.shared.handles.count (.holds x) + th.references x =
      w.references x + w'.shared.handles.count (.holds x) + th'.references x := by
  have hmove := Pool.total_step (e := (t, ())) (Thread.references x) hth ht
  simp only [World.references, hon]
  omega

theorem stock_step (hth : w.threads[t]? = some th) (ht : w'.threads = w.threads.set t th')
    (x : ℕ) : w'.stock x + w.shared.pool.count x + th.moving x =
      w.stock x + w'.shared.pool.count x + th'.moving x := by
  have hmove := Pool.total_step (e := (t, ())) (Thread.moving x) hth ht
  simp only [World.stock]
  omega

theorem references_pos (h : 0 < w.shared.handles.count (.holds x)) : 0 < w.references x := by
  rw [World.references]
  omega

theorem count_pos_of_getElem? {k : ℕ} (h : s.handles[k]? = some (.holds x)) :
    0 < s.handles.count (.holds x) :=
  List.count_pos_iff.2 (List.mem_of_getElem? h)

/-- What is not done on the server leaves it as it is. -/
theorem Does.onServer (hd : Does s th e s' th') :
    s'.server = s.server ∧ th'.onServer = th.onServer := by
  cases hd <;> exact ⟨rfl, rfl⟩

/-- **What is not done on the server**, by what it does with one buffer. -/
theorem Does.booked (hd : Does w.shared th e w'.shared th') (hth : w.threads[t]? = some th)
    (ht : w'.threads = w.threads.set t th') (hl : th.Lends w.shared) (y : ℕ) :
    Booked w.shared w'.shared y (w.references y) (w.stock y) (w'.references y) (w'.stock y) := by
  have hon := onServer_eq hth ht hd.onServer.1 hd.onServer.2
  have hr := references_step hth ht hon y
  have hs := stock_step hth ht y
  have hpos := references_pos (w := w) (x := y)
  generalize w.references y = r at *
  generalize w'.references y = r' at *
  generalize w.stock y = p at *
  generalize w'.stock y = p' at *
  generalize w.shared = s at *
  generalize w'.shared = s' at *
  cases hd with
  | construct x rest htodo =>
    simp only [Thread.references, Thread.moving, htodo, List.count_append, List.count_cons,
      List.count_nil, increaseRef] at hr hs
    by_cases hy : y = x
    · subst hy
      simp at hr hs
      exact .more (by omega) (Function.update_self ..) rfl (.inr (by omega))
    · simp [Ne.symm hy] at hr hs
      exact .keep (by omega) (Function.update_of_ne hy ..) rfl (by omega)
  | release x rest htodo =>
    by_cases hz : s.refCount x - 1 = 0
    · simp only [if_pos hz, Thread.references, Thread.moving, htodo, List.count_cons,
        decreaseRef] at hr hs
      by_cases hy : y = x
      · subst hy
        simp at hr hs
        exact .fewer (by omega) (Function.update_self ..) rfl (by rw [if_pos hz]; omega)
      · simp [Ne.symm hy] at hr hs
        exact .keep (by omega) (Function.update_of_ne hy ..) rfl (by omega)
    · simp only [if_neg hz, Thread.references, Thread.moving, htodo, List.count_cons,
        decreaseRef] at hr hs
      by_cases hy : y = x
      · subst hy
        simp at hr hs
        exact .fewer (by omega) (Function.update_self ..) rfl (by rw [if_neg hz]; omega)
      · simp [Ne.symm hy] at hr hs
        exact .keep (by omega) (Function.update_of_ne hy ..) rfl (by omega)
  | free x rest htodo =>
    simp only [Thread.references, Thread.moving, htodo, List.count_cons] at hr hs
    refine .keep ?_ rfl rfl ?_
    · simp at hr
      omega
    · by_cases hy : x = y
      · simp [hy] at hs
        omega
      · simp [hy] at hs
        omega
  | increase x c k htodo hlent hpc =>
    simp only [Thread.references, Thread.moving, htodo, hlent, hpc, Pc.brings, increaseRef,
      List.count_cons, List.count_nil] at hr hs
    by_cases hy : y = x
    · subst hy
      obtain ⟨z, hz, hb⟩ := hl.1 k hlent
      rw [hpc] at hz
      obtain rfl : y = z := Option.some.inj hz
      simp at hr hs
      exact .more (by omega) (Function.update_self ..) rfl
        (.inl ⟨by omega, hpos (count_pos_of_getElem? hb)⟩)
    · simp [Ne.symm hy] at hr hs
      exact .keep (by omega) (Function.update_of_ne hy ..) rfl (by omega)
  | reuse x htodo hmem =>
    simp only [Thread.references, Thread.moving, htodo, List.count_cons, List.count_nil] at hr hs
    refine .keep ?_ rfl rfl ?_
    · simp at hr
      omega
    · by_cases hy : x = y
      · subst hy
        have hcount : 0 < s.pool.count x := List.count_pos_iff.2 hmem
        simp at hs
        omega
      · simp [hy] at hs
        rw [List.count_erase_of_ne (Ne.symm hy)] at hs
        omega
  | fresh htodo =>
    simp only [Thread.references, Thread.moving, htodo, List.count_cons, List.count_nil] at hr hs
    refine .same ?_ rfl ?_
    · simp at hr
      omega
    · by_cases hy : s.constructed = y
      · subst hy
        simp at hs
        simp only [lt_irrefl, if_false, Nat.lt_succ_self, if_true]
        omega
      · simp [hy] at hs
        have hiff : y < s.constructed + 1 ↔ y < s.constructed := by omega
        simp only [hiff]
        omega
  | copy k x hk =>
    simp only [Thread.references, Thread.moving, List.count_append, List.count_cons,
      List.count_nil, increaseRef] at hr hs
    by_cases hy : y = x
    · subst hy
      simp at hr hs
      exact .more (by omega) (Function.update_self ..) rfl
        (.inl ⟨by omega, hpos (count_pos_of_getElem? hk)⟩)
    · simp [Ne.symm hy] at hr hs
      exact .keep (by omega) (Function.update_of_ne hy ..) rfl (by omega)
  | arrange handles hcount hother =>
    simp only [hcount y] at hr hs
    exact .keep (by omega) rfl rfl (by omega)
  | destroy k x htodo hk hchanges =>
    have hset := count_set (b := .destroyed) (c := .holds y) hk
    simp only [Thread.references, Thread.moving, htodo, List.count_cons, List.count_nil]
      at hr hs hset
    refine .keep ?_ rfl rfl ?_
    · by_cases hy : x = y
      · subst hy
        simp at hr hset
        omega
      · simp [hy] at hr hset
        omega
    · simp at hs
      omega

theorem Serves.step (hd : Serves w.shared th w'.shared th') (hth : w.threads[t]? = some th)
    (ht : w'.threads = w.threads.set t th') :
    ∃ ev, Server.step w.onServer ev = some w'.onServer := by
  generalize hw : w.shared = s at hd
  generalize hw' : w'.shared = s' at hd
  cases hd with
  | serve lent index ev server k pc htodo hserved hlent hnext =>
    refine ⟨(t, index, ev), onServer_step hth ht ?_ rfl⟩
    rw [hw, hw']
    exact hnext

/-- The references of a thread that is about to act on the server. -/
theorem references_of_served (htodo : th.todo = [])
    (hserved : th.onServer.2.brings ≠ [] → th.lent = none) (y : ℕ) :
    th.references y = th.onServer.2.brings.count y := by
  rw [Thread.references, htodo, List.count_nil, Nat.zero_add]
  by_cases hb : th.onServer.2.brings = []
  · simp [hb]
  · rw [if_pos (hserved hb)]

theorem argument_of_brings {pc : Pc ℕ} (h : pc.brings ≠ []) : pc.argument ≠ none := by
  cases pc with
  | enqTicket => exact Option.some_ne_none _
  | _ => exact absurd rfl h

theorem count_release (l : List ℕ) (y : ℕ) :
    (l.map Todo.release).count (.release y) = l.count y :=
  List.count_map_of_injective l Todo.release (fun _ _ => Todo.release.inj) y

theorem moving_release (l : List ℕ) (y : ℕ) :
    (l.map Todo.release).count (.construct y) + (l.map Todo.release).count (.free y) = 0 := by
  have hnot (a : Todo) (ha : ∀ z, Todo.release z ≠ a) : (l.map Todo.release).count a = 0 :=
    List.count_eq_zero.2 fun hmem => by
      obtain ⟨z, -, hz⟩ := List.mem_map.1 hmem
      exact ha z hz
  rw [hnot _ fun z => Todo.noConfusion, hnot _ fun z => Todo.noConfusion]

/-- **What is done on the server**: no reference comes or goes, and the slots
stay as they should be. -/
theorem Serves.booked (hd : Serves w.shared th w'.shared th') (hth : w.threads[t]? = some th)
    (ht : w'.threads = w.threads.set t th') (hl : th.Lends w.shared)
    (hsound : Server.AllSound w.onServer) (hkept : ∀ k, Slot.Kept (w.onServer.slot k))
    (hproper : th.served = true → Proper (w.onServer.slot th.onServer.1) th.onServer.2) :
    (∀ k, Slot.Kept (w'.onServer.slot k)) ∧ ∀ y,
      Booked w.shared w'.shared y (w.references y) (w.stock y) (w'.references y) (w'.stock y) := by
  have hmove (y : ℕ) := Pool.total_step (e := (t, ())) (Thread.references y) hth ht
  have hs (y : ℕ) := stock_step hth ht y
  generalize hw : w.shared = s at *
  generalize hw' : w'.shared = s' at *
  cases hd with
  | serve lent index ev server k pc htodo hserved hlent hnext =>
    have hser : th.served = true := by
      rw [Thread.served, htodo]
      by_cases hb : th.onServer.2.brings = []
      · simp [hb]
      · simp [hserved hb]
    have hon : w.onServer.threads[t]? = some (th.onServer.1, th.onServer.2) := by
      simp [World.onServer, hth]
    have hon' : w'.onServer.threads = w.onServer.threads.set t (k, pc) := by
      simp [World.onServer, ht, List.map_set]
    have hserver : w.onServer.shared = s.server := congrArg Handles.server hw
    have hserver' : w'.onServer.shared = server := congrArg Handles.server hw'
    have hnext' : Server.next w.onServer.shared (th.onServer.1, th.onServer.2) (index, ev) =
        some (w'.onServer.shared, k, pc) := by
      rw [hserver, hserver']
      exact hnext
    obtain ⟨hkept', hsum⟩ := serve_slots hsound hkept hon hon' hnext' (hproper hser)
    refine ⟨hkept', fun y => .keep ?_ rfl rfl ?_⟩
    · have hy := hsum y
      rw [hserver, hserver'] at hy
      have hbefore := references_of_served htodo hserved y
      have hafter : Thread.references y
          { onServer := (k, pc), lent := if pc.argument = none then none else lent
            todo := (gives (s.server.sessions k) th.onServer.2 (server.sessions k)).map .release } =
          (gives (s.server.sessions k) th.onServer.2 (server.sessions k)).count y := by
        rw [Thread.references, count_release, Nat.add_eq_left]
        by_cases hb : pc.brings = []
        · simp [hb]
        · -- the call has come to `Enqueue` with its handle
          obtain ⟨x, hx⟩ := Option.ne_none_iff_exists'.1 (argument_of_brings hb)
          obtain ⟨m, hm, -⟩ := lent_of_argument hl hlent hnext hx
          exact if_neg (by simp [hx, hm])
      have := hmove y
      simp only [World.references, hw, hw']
      omega
    · have := hs y
      simp only [Thread.moving, htodo, moving_release, List.count_nil] at this
      omega

end Books

end Handles

end NetLib
