import NetLib.Timeout.Model
/-!
# The accesses of a slot on the clock

Every action with what it saw, and what it is to the slot below: nothing, an
action of the slot's own, or the reference `CheckTimeout` takes.
-/

namespace NetLib

namespace Timed

variable {Buf : Type} {index : ℕ} {s s' : Timed Buf} {w w' : World Buf} {pc pc' : Pc Buf}

/-! ## What a step can do -/

/-- Every action of a thread, with what it saw. -/
inductive Action (index : ℕ) (s : Timed Buf) : Pc Buf → Event Buf → Timed Buf → Pc Buf → Prop
  | slot {q q' : Slot.Pc Buf} {e : Slot.Event Buf} {i : ℕ} {r : Slot Buf}
    (hnext : Slot.next index s.slot q e = some (r, q'))
    (hends : endsSend q e = true → i < s.sends.length) :
    Action index s (.slot q) (.slot e i) { s.observe q e i with slot := r } (enter q q')
  | tick (duration : ℕ) : Action index s (.slot .idle) (.tick duration)
      { s with clock := s.clock + duration } (.slot .idle)
  | timeoutThread (hcheck : s.checkTimeout = true) :
    Action index s (.slot .idle) .timeoutThread s (.checkZero s.clock)
  | noTimeout : Action index s (.slot .idle) (.setDefaultTimeout 0)
      { s with checkTimeout := false } (.slot .idle)
  | setDefaultTimeout {t : ℤ} (ht : t ≠ 0) : Action index s (.slot .idle) (.setDefaultTimeout t)
      { s with defaultTimeout := t } (.setTimeout t)
  | setTimeout (id : SessionID) (t : ℤ) : Action index s (.slot (.holding id)) (.setTimeout t)
      { s with timeout := t } (.slot (.holding id))
  | setAll (t : ℤ) (e : Event Buf) :
    Action index s (.setTimeout t) e { s with timeout := t } (.slot .idle)
  | needCheck (c : Slot.Caller) (bufs : List Buf) (e : Event Buf) :
    Action index s (.needCheck c bufs) e { s with needCheckSendTimeout := true } (.lastSend c bufs)
  | lastSend (c : Slot.Caller) (bufs : List Buf) (e : Event Buf) :
    Action index s (.lastSend c bufs) e
      { s with lastSend := s.clock, sends := s.sends ++ [(s.slot.sessionId, s.clock)] }
      (.slot (.realSendStore c bufs))
  | lastRecv (e : Event Buf) : Action index s .lastRecv e
      { s with
        lastRecv := s.clock, recvAt := Function.update s.recvAt s.slot.sessionId s.clock }
      (.slot .wsaRecv)
  | clearNeedCheck (e : Event Buf) : Action index s .clearNeedCheck e
      { s with needCheckSendTimeout := false } (.slot .postSendClear)
  | resetNeedCheck (r : Slot.Resetter) (e : Event Buf) : Action index s (.resetNeedCheck r) e
      { s with needCheckSendTimeout := false } (.resetTimeout r)
  | resetTimeout (r : Slot.Resetter) (e : Event Buf) : Action index s (.resetTimeout r) e
      { s with timeout := s.defaultTimeout } (.slot (.deqHead (.reset r)))
  | checkZero (now : ℤ) (e : Event Buf) : Action index s (.checkZero now) e s (.checkRef now)
  | isZero (now : ℤ) (e : Event Buf) : Action index s (.checkZero now) e s (.slot .idle)
  | checkRef (now : ℤ) (e : Event Buf) : Action index s (.checkRef now) e s (.increaseRef now)
  | isReleased (now : ℤ) (e : Event Buf) : Action index s (.checkRef now) e s (.slot .idle)
  | increaseRef (now : ℤ) (e : Event Buf) (hopen : s.slot.refCount + 1 < RELEASE_FLAG) :
    Action index s (.increaseRef now) e
      { s with slot := { s.slot with refCount := s.slot.refCount + 1 } }
      (.readLastRecv now s.slot.sessionId)
  | alreadyRelease (now : ℤ) (e : Event Buf) (hflag : RELEASE_FLAG ≤ s.slot.refCount + 1) :
    Action index s (.increaseRef now) e
      { s with slot := { s.slot with refCount := s.slot.refCount + 1 } }
      (.slot (.release none .done))
  | readLastRecv (now : ℤ) (id : SessionID) (e : Event Buf) :
    Action index s (.readLastRecv now id) e s (.readLastSend now (now - s.lastRecv) id)
  | readLastSend (now recvWait : ℤ) (id : SessionID) (e : Event Buf) :
    Action index s (.readLastSend now recvWait id) e s
      (.readNeedCheck now recvWait (now - s.lastSend) id s.ended)
  | needed (now recvWait sendWait : ℤ) (id : SessionID) (ended : ℕ) (e : Event Buf)
    (hneed : s.needCheckSendTimeout = true) :
    Action index s (.readNeedCheck now recvWait sendWait id ended) e s
      (.compareSend now recvWait sendWait id ended)
  | notNeeded (now recvWait sendWait : ℤ) (id : SessionID) (ended : ℕ) (e : Event Buf) :
    Action index s (.readNeedCheck now recvWait sendWait id ended) e s
      (.compareRecv now recvWait id)
  | sendTimeout {now recvWait sendWait : ℤ} {id : SessionID} {ended : ℕ} (e : Event Buf)
    (hlong : s.timeout < milliseconds sendWait) :
    Action index s (.compareSend now recvWait sendWait id ended) e s
      (.checked (.release (some id) .done) id (some ⟨.send, milliseconds sendWait, s.timeout⟩))
  | sendInTime (now recvWait sendWait : ℤ) (id : SessionID) (ended : ℕ) (e : Event Buf) :
    Action index s (.compareSend now recvWait sendWait id ended) e s (.compareRecv now recvWait id)
  | recvTimeout {now recvWait : ℤ} {id : SessionID} (e : Event Buf)
    (hlong : s.timeout < milliseconds recvWait) :
    Action index s (.compareRecv now recvWait id) e s
      (.checked (.release (some id) .done) id (some ⟨.recv, milliseconds recvWait, s.timeout⟩))
  | recvInTime (now recvWait : ℤ) (id : SessionID) (e : Event Buf) :
    Action index s (.compareRecv now recvWait id) e s (.checked (.release (some id) .done) id none)
  | checked {q q' : Slot.Pc Buf} {r : Slot Buf} {id : SessionID} {result : Option timeoutInfo}
    (e : Event Buf) (hnext : Slot.next index s.slot q .go = some (r, q')) (hbusy : q' ≠ .idle) :
    Action index s (.checked q id result) e { s with slot := r } (.checked q' id result)
  | answered {q : Slot.Pc Buf} {r : Slot Buf} {id : SessionID} {info : timeoutInfo}
    (e : Event Buf) (hnext : Slot.next index s.slot q .go = some (r, .idle)) :
    Action index s (.checked q id (some info)) e { s with slot := r } (.getSessionId id info)
  | inTime {q : Slot.Pc Buf} {r : Slot Buf} {id : SessionID}
    (e : Event Buf) (hnext : Slot.next index s.slot q .go = some (r, .idle)) :
    Action index s (.checked q id none) e { s with slot := r } (.slot .idle)
  | getSessionId (id : SessionID) (info : timeoutInfo) (e : Event Buf) :
    Action index s (.getSessionId id info) e s (.onSessionTimeout s.slot.sessionId info)
  | onSessionTimeout (id : SessionID) (info : timeoutInfo) (e : Event Buf) :
    Action index s (.onSessionTimeout id info) e s .resetNow
  | resetNow (e : Event Buf) : Action index s .resetNow e s (.resetRecv s.clock)
  | resetRecv (now : ℤ) (e : Event Buf) :
    Action index s (.resetRecv now) e { s with lastRecv := now } (.resetSend now)
  | resetSend (now : ℤ) (e : Event Buf) :
    Action index s (.resetSend now) e { s with lastSend := now } (.slot .idle)

theorem nextSlot_action {q : Slot.Pc Buf} {e : Slot.Event Buf} {i : ℕ}
    (h : nextSlot index s q e i = some (s', pc')) :
    Action index s (.slot q) (.slot e i) s' pc' := by
  cases e with
  | timeout => cases h
  | _ =>
    simp only [nextSlot] at h
    split at h
    · cases h
    · rename_i hends
      obtain ⟨⟨r, q'⟩, hnext, heq⟩ := Option.map_eq_some_iff.1 h
      obtain ⟨rfl, rfl⟩ := Prod.mk.inj heq
      exact .slot hnext fun hend => by
        by_contra hlt
        exact hends ⟨hend, not_lt.1 hlt⟩

theorem start_action {e : Event Buf} (h : start index s e = some (s', pc')) :
    Action index s (.slot .idle) e s' pc' := by
  cases e with
  | go | setTimeout t => cases h
  | slot e i => exact nextSlot_action h
  | tick d =>
    obtain ⟨rfl, rfl⟩ := Prod.mk.inj (Option.some.inj h)
    exact .tick d
  | timeoutThread =>
    simp only [start, Option.ite_none_right_eq_some, Option.some.injEq, Prod.mk.injEq] at h
    obtain ⟨hcheck, rfl, rfl⟩ := h
    exact .timeoutThread hcheck
  | setDefaultTimeout t =>
    simp only [start] at h
    split at h <;> obtain ⟨rfl, rfl⟩ := Prod.mk.inj (Option.some.inj h)
    · rename_i ht
      subst ht
      exact .noTimeout
    · exact .setDefaultTimeout (by assumption)

theorem nextStore_action {e : Event Buf} (h : nextStore s pc = some (s', pc')) :
    Action index s pc e s' pc' := by
  cases pc <;> simp only [nextStore, Option.some.injEq, Prod.mk.injEq, reduceCtorEq] at h
  all_goals obtain ⟨rfl, rfl⟩ := h
  case needCheck c bufs => exact .needCheck c bufs e
  case lastSend c bufs => exact .lastSend c bufs e
  case lastRecv => exact .lastRecv e
  case clearNeedCheck => exact .clearNeedCheck e
  case resetNeedCheck r => exact .resetNeedCheck r e
  case resetTimeout r => exact .resetTimeout r e
  case setTimeout t => exact .setAll t e

theorem nextTimeout_action {e : Event Buf} (h : nextTimeout index s pc = some (s', pc')) :
    Action index s pc e s' pc' := by
  cases pc <;> simp only [nextTimeout, Option.some.injEq, Prod.mk.injEq, reduceCtorEq] at h
  case checked q id result =>
    obtain ⟨⟨r, q'⟩, hnext, heq⟩ := Option.map_eq_some_iff.1 h
    obtain ⟨rfl, rfl⟩ := Prod.mk.inj heq
    clear h heq
    split
    · rename_i hidle
      obtain rfl : q' = .idle := hidle
      exact .inTime e hnext
    · rename_i hidle
      obtain rfl : q' = .idle := hidle
      exact .answered e hnext
    · rename_i result _ _ hnone hsome
      refine .checked e hnext fun hidle => ?_
      rcases hresult : result with _ | info
      · exact hnone hidle hresult
      · exact hsome info hidle hresult
  all_goals obtain ⟨rfl, rfl⟩ := h
  case checkZero now =>
    split
    · exact .isZero now e
    · exact .checkZero now e
  case checkRef now =>
    split
    · exact .isReleased now e
    · exact .checkRef now e
  case increaseRef now =>
    split
    · exact .alreadyRelease now e (by assumption)
    · exact .increaseRef now e (not_le.1 (by assumption))
  case readLastRecv now id => exact .readLastRecv now id e
  case readLastSend now recvWait id => exact .readLastSend now recvWait id e
  case readNeedCheck now recvWait sendWait id ended =>
    split
    · exact .needed now recvWait sendWait id ended e (by assumption)
    · exact .notNeeded now recvWait sendWait id ended e
  case compareSend now recvWait sendWait id ended =>
    split
    · exact .sendTimeout e (by assumption)
    · exact .sendInTime now recvWait sendWait id ended e
  case compareRecv now recvWait id =>
    split
    · exact .recvTimeout e (by assumption)
    · exact .recvInTime now recvWait id e
  case getSessionId id info => exact .getSessionId id info e
  case onSessionTimeout id info => exact .onSessionTimeout id info e
  case resetNow => exact .resetNow e
  case resetRecv now => exact .resetRecv now e
  case resetSend now => exact .resetSend now e

theorem next_action {e : Event Buf} (h : next index s pc e = some (s', pc')) :
    Action index s pc e s' pc' := by
  unfold next at h
  split at h
  · exact start_action h
  · obtain ⟨rfl, rfl⟩ := Prod.mk.inj (Option.some.inj h)
    exact .setTimeout _ _
  · exact nextSlot_action h
  · cases h
  all_goals first
    | exact nextStore_action h | exact nextTimeout_action h

/-! ## The slot below -/

/-- Where a thread is on the slot. From `IncreaseRef` to its `Release`,
`CheckTimeout` holds a reference on the session it found there. -/
def Pc.onSlot : Pc Buf → Slot.Pc Buf
  | .slot q | .checked q _ _ => q
  | .needCheck c bufs | .lastSend c bufs => .realSendStore c bufs
  | .lastRecv => .wsaRecv
  | .clearNeedCheck => .postSendClear
  | .resetNeedCheck r | .resetTimeout r => .deqHead (.reset r)
  | .readLastRecv _ id | .readLastSend _ _ id | .readNeedCheck _ _ _ id _
  | .compareSend _ _ _ id _ | .compareRecv _ _ id => .holding id
  | _ => .idle

def World.onSlot (w : World Buf) : Slot.World Buf := ⟨w.shared.slot, w.threads.map Pc.onSlot⟩

theorem enter_onSlot {a r : Slot Buf} {q q' : Slot.Pc Buf} {e : Slot.Event Buf}
    (h : Slot.next index a q e = some (r, q')) : (enter q q').onSlot = q' := by
  unfold enter
  split
  case h_4 =>
    obtain ⟨-, rfl⟩ := Prod.mk.inj (Option.some.inj h)
    rfl
  all_goals rfl

/-- What an action is to the slot: nothing, an action of its own, or the
reference `CheckTimeout` takes on whatever session is there. -/
inductive Refines (index : ℕ) (a : Slot Buf) (q : Slot.Pc Buf) (b : Slot Buf) (q' : Slot.Pc Buf) :
    Prop
  | stay (hslot : b = a) (hpc : q' = q)
  | step (e : Slot.Event Buf) (hnext : Slot.next index a q e = some (b, q'))
  | take (hidle : q = .idle) (hslot : b = { a with refCount := a.refCount + 1 })
      (hpc : q' = if RELEASE_FLAG ≤ a.refCount + 1 then .release none .done
        else .holding a.sessionId)

theorem Action.refines {e : Event Buf} (h : Action index s pc e s' pc') :
    Refines index s.slot pc.onSlot s'.slot pc'.onSlot := by
  cases h
  case slot q q' e i r hnext _ =>
    refine .step e ?_
    rw [enter_onSlot hnext]
    exact hnext
  case increaseRef now hopen => exact .take rfl rfl (if_neg (not_le.2 hopen)).symm
  case alreadyRelease now hflag => exact .take rfl rfl (if_pos hflag).symm
  case sendTimeout | recvTimeout | recvInTime => exact .step .go rfl
  case checked hnext _ | answered hnext | inTime hnext => exact .step .go hnext
  all_goals exact .stay rfl rfl

/-- **`CheckTimeout` takes its reference like `FindSession` does**, asked
for the session it finds in the slot. -/
theorem sound_take {v v' : Slot.World Buf} {i : ℕ} (h : Slot.Sound index v)
    (hidle : v.threads[i]? = some .idle)
    (hslot : v'.shared = { v.shared with refCount := v.shared.refCount + 1 })
    (ht : v'.threads = v.threads.set i (if RELEASE_FLAG ≤ v.shared.refCount + 1 then
      .release none .done else .holding v.shared.sessionId))
    (hfew : Slot.FewRefs v') : Slot.Sound index v' := by
  let id := v.shared.sessionId
  let result := v.shared.refCount + 1
  let v₁ : Slot.World Buf := ⟨v.shared, v.threads.set i (.find id .hold)⟩
  let v₂ : Slot.World Buf := ⟨v'.shared, v.threads.set i (.findCheck id result .hold)⟩
  obtain ⟨hlt, -⟩ := List.getElem?_eq_some_iff.1 hidle
  have hrefs {q : Slot.Pc Buf} :
      ((v.threads.set i q).map Slot.Pc.refs).sum = v.total Slot.Pc.refs + q.refs :=
    Pool.sum_map_set Slot.Pc.refs hidle
  have hio : v'.shared.io = v.shared.io := by rw [hslot]; rfl
  have hfew' : ((v.shared.io + (v.total Slot.Pc.refs + 1) : ℕ) : ℤ) < RELEASE_FLAG := by
    have := hfew
    simp only [Slot.FewRefs, Slot.life, hio, Pool.total, ht, hrefs] at this
    split at this <;> exact this
  have h₁ : Slot.Sound index v₁ := by
    refine h.step (e := (i, .hold id)) ?_ ?_
    · simp only [Slot.step, Pool.step, hidle]
      rfl
    · simp only [Slot.FewRefs, Slot.life, Pool.total, v₁, hrefs]
      change ((v.shared.io + (v.total Slot.Pc.refs + 0) : ℕ) : ℤ) < RELEASE_FLAG
      omega
  have h₂ : Slot.Sound index v₂ := by
    refine h₁.step (e := (i, .go)) ?_ ?_
    · simp only [Slot.step, Pool.step, v₁, List.getElem?_set_self hlt, v₂, hslot, List.set_set]
      rfl
    · simp only [Slot.FewRefs, Slot.life, Pool.total, v₂, hrefs, hio]
      exact hfew'
  -- the flag's bit alone is not reached by counting up
  have hflag : v.shared.refCount + 1 ≠ RELEASE_FLAG := by
    have hone := h₂.counted.one
    have hopen := h₂.counted.count_open
    have hclosed := h₂.counted.count_closed
    have hcount : (Slot.life v₂).count = v.shared.refCount + 1 := by
      change v'.shared.refCount = _
      rw [hslot]
    have hpos : (Slot.life v₂).refs = v.shared.io + (v.total Slot.Pc.refs + 1) := by
      simp only [Slot.life, Pool.total, v₂, hrefs, hio]
      rfl
    omega
  refine h₂.step (e := (i, .go)) ?_ hfew
  have hid : v'.shared.sessionId = id := by rw [hslot]
  simp only [Slot.step, Pool.step, v₂, List.getElem?_set_self hlt, Slot.next, Slot.nextRef, hid,
    ne_eq, not_true_eq_false, or_false, List.set_set]
  obtain ⟨shared, threads⟩ := v'
  simp only at ht
  subst ht
  by_cases hle : RELEASE_FLAG ≤ v.shared.refCount + 1
  · rw [if_pos hle, if_pos (show RELEASE_FLAG < result by omega)]
    rfl
  · rw [if_neg hle, if_neg (show ¬RELEASE_FLAG < result by omega)]
    rfl

/-- **Every step keeps the slot below sound.** -/
theorem sound_step {e : ℕ × Event Buf} (h : Slot.Sound index w.onSlot)
    (hst : step index w e = some w') (hfew : Slot.FewRefs w'.onSlot) :
    Slot.Sound index w'.onSlot := by
  obtain ⟨pc, pc', hpc, hnext, ht⟩ := Pool.step_eq_some hst
  have hpc' : w.onSlot.threads[e.1]? = some pc.onSlot := by
    rw [World.onSlot, List.getElem?_map, hpc]
    rfl
  have ht' : w'.onSlot.threads = w.onSlot.threads.set e.1 pc'.onSlot := by
    simp only [World.onSlot, ht, List.map_set]
  cases (next_action hnext).refines with
  | stay hslot hq =>
    have heq : w'.onSlot = w.onSlot := by
      obtain ⟨hlt, hget⟩ := List.getElem?_eq_some_iff.1 hpc'
      have hthreads : w'.onSlot.threads = w.onSlot.threads := by
        rw [ht', hq, ← hget, List.set_getElem_self]
      simp only [World.onSlot] at hthreads ⊢
      rw [hslot, hthreads]
    rw [heq]
    exact h
  | step ev hnext' =>
    refine h.step (e := (e.1, ev)) ?_ hfew
    simp only [Slot.step, Pool.step, hpc', Option.map_eq_some_iff]
    exact ⟨_, hnext', by rw [← ht']; rfl⟩
  | take hidle hslot hq =>
    exact sound_take h (hidle ▸ hpc') hslot (by rw [ht', hq]; rfl) hfew

end Timed

end NetLib
