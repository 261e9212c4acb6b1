import NetLib.Timeout.Steps
/-!
# Whom a timeout is charged to

`CheckTimeout` reads the time of the last receive, the time of the last send
and the flag of the send one after the other, gives its reference back, and
`TimeoutThread` reads the id after that. What it has read stays true of the
session as long as nobody writes in between, and as long as the fields were
the session's own to begin with.
-/

namespace NetLib

namespace Timed

variable {Buf : Type} {index : ℕ} {s s' : Timed Buf} {w w' : World Buf} {pc pc' : Pc Buf}

/-! ## What the other threads have to mind -/

/-- Is the thread on its way to `OnSessionTimeout`, or there, to charge this
session? -/
def Pc.charges (type : IOtype) (id : SessionID) : Pc Buf → Bool
  | .checked _ id' (some info) | .getSessionId id' info | .onSessionTimeout id' info =>
    info.type = type ∧ id' = id
  | _ => false

/-- Has it yet to read the id it will report? -/
def Pc.unnamed : Pc Buf → Bool
  | .checked _ _ (some _) | .getSessionId _ _ => true
  | _ => false

/-- Is it between its reads of `lastSend` and of the flag? -/
def Pc.readsFlag : Pc Buf → Bool
  | .readNeedCheck _ _ _ _ _ => true
  | _ => false

/-- Where the fields are the session's own, and stay so until the call: the
condition on one access of a thread, by what comes next.
 - `CheckTimeout` reads `lastRecv` only after the session has posted its
   first receive, and it is unchanged when a wait too long is found;
 - it reads `lastSend` only if a flag set means a send outstanding, the flag
   is not set between the two reads, and no send has ended when a wait too
   long is found;
 - no receive of the session is posted, and no send of it ends, on the way to
   the call that charges it with one;
 - the slot is given to no other session before the id is read;
 - `ResetTimeoutWait` stores no time older than what is there. -/
def Careful (s : Timed Buf) (threads : List (Pc Buf)) : Pc Buf → Event Buf → Prop
  | .readLastRecv _ id, _ => s.acceptedAt id ≤ s.lastRecv
  | .readLastSend _ _ id, _ => s.needCheckSendTimeout = true → ∃ x ∈ s.sends, x.1 = id
  | .needCheck _ _, _ => ∀ q ∈ threads, q.readsFlag = false
  | .compareSend _ _ sendWait _ ended, _ =>
    s.timeout < milliseconds sendWait → s.ended = ended
  | .compareRecv now recvWait _, _ =>
    s.timeout < milliseconds recvWait → s.lastRecv = now - recvWait
  | .lastRecv, _ => ∀ q ∈ threads, q.charges .recv s.slot.sessionId = false
  | .slot (.acceptSetId _), _ => ∀ q ∈ threads, q.unnamed = false
  | .slot q, .slot e i =>
    endsSend q e = true → ∀ x ∈ s.sends[i]?, ∀ p ∈ threads, p.charges .send x.1 = false
  | .resetRecv now, _ => s.lastRecv ≤ now
  | .resetSend now, _ => s.lastSend ≤ now
  | _, _ => True

instance decidableCareful (s : Timed Buf) (threads : List (Pc Buf)) (pc : Pc Buf)
    (e : Event Buf) : Decidable (s.Careful threads pc e) := by
  unfold Careful
  split <;> exact inferInstance

/-- The condition on a step, and few references after it. -/
def Minds (w : World Buf) (e : ℕ × Event Buf) (w' : World Buf) : Prop :=
  Slot.FewRefs w'.onSlot ∧ ∀ pc ∈ w.threads[e.1]?, w.shared.Careful w.threads pc e.2

instance decidableMinds (w : World Buf) (e : ℕ × Event Buf) (w' : World Buf) :
    Decidable (Minds w e w') :=
  inferInstanceAs (Decidable (_ ∧ _))

/-! ## What a thread knows -/

/-- Is the thread in `CheckTimeout`'s `Release`? -/
def releases : Slot.Pc Buf → Bool
  | .release _ .done | .releaseCas .done | .postRelease .done => true
  | _ => false

/-- What `TimeoutThread` knows of the session it looks at, from what it has
read so far. -/
def Pc.Knows (s : Timed Buf) : Pc Buf → Prop
  | .checkZero now | .checkRef now | .increaseRef now | .readLastRecv now _ | .resetRecv now
  | .resetSend now => now ≤ s.clock
  | .readLastSend now recvWait id | .compareRecv now recvWait id =>
    now ≤ s.clock ∧ id ∈ s.slot.accepted ∧ s.acceptedAt id ≤ now - recvWait
  | .readNeedCheck now recvWait sendWait id ended =>
    (now ≤ s.clock ∧ id ∈ s.slot.accepted ∧ s.acceptedAt id ≤ now - recvWait) ∧ ended ≤ s.ended ∧
      (s.needCheckSendTimeout = true → ended = s.ended →
        ∃ x ∈ s.sends, x.1 = id ∧ x.2 ≤ now - sendWait)
  | .compareSend now recvWait sendWait id ended =>
    (now ≤ s.clock ∧ id ∈ s.slot.accepted ∧ s.acceptedAt id ≤ now - recvWait) ∧ ended ≤ s.ended ∧
      (ended = s.ended → ∃ x ∈ s.sends, x.1 = id ∧ x.2 ≤ now - sendWait)
  | .checked q id result =>
    releases q = true ∧ ∀ info ∈ result, s.slot.sessionId = id ∧ s.Charged id info
  | .getSessionId id info => s.slot.sessionId = id ∧ s.Charged id info
  | .onSessionTimeout id info => s.Charged id info
  | _ => True

/-- What a step of another thread may do, for what a thread knows to stay
true. -/
structure Leaves (s s' : Timed Buf) (q : Pc Buf) : Prop where
  clock : s.clock ≤ s'.clock
  accepted : ∀ id ∈ s.slot.accepted, id ∈ s'.slot.accepted ∧ s'.acceptedAt id = s.acceptedAt id
  name : q.unnamed = true → s'.slot.sessionId = s.slot.sessionId
  flag : q.readsFlag = true → s'.needCheckSendTimeout = true → s.needCheckSendTimeout = true
  ended : s.ended ≤ s'.ended
  sends : s'.ended = s.ended → ∀ x ∈ s.sends, x ∈ s'.sends
  recv : ∀ id, q.charges .recv id = true → s'.recvAt id = s.recvAt id
  send : ∀ id, q.charges .send id = true → ∀ x ∈ s.sends, x.1 = id → x ∈ s'.sends

/-- The slot may go on, as long as it opens no session. -/
theorem Charged.of_accepted {r : Slot Buf} {id : SessionID} {info : timeoutInfo}
    (h : r.accepted = s.slot.accepted) (hc : s.Charged id info) :
    Timed.Charged { s with slot := r } id info := by
  obtain ⟨hacc, hwait⟩ := hc
  exact ⟨h ▸ hacc, hwait⟩

theorem Leaves.charged {q : Pc Buf} {id : SessionID} {info : timeoutInfo} (h : Leaves s s' q)
    (hq : q.charges info.type id = true) (hc : s.Charged id info) : s'.Charged id info := by
  obtain ⟨hacc, hwait⟩ := hc
  obtain ⟨hacc', hat⟩ := h.accepted id hacc
  have hclock := h.clock
  refine ⟨hacc', ?_⟩
  obtain ⟨type, waitTime, timeoutTime⟩ := info
  cases type with
  | recv =>
    simp only at hwait ⊢
    rw [hat, h.recv id hq]
    omega
  | send =>
    obtain ⟨x, hx, hid, hlt⟩ := hwait
    exact ⟨x, h.send id hq x hx hid, hid, by simp only at hlt ⊢; omega⟩

/-- **What a thread knows stays true** under such a step. -/
theorem Pc.Knows.mono {q : Pc Buf} (hk : q.Knows s) (h : Leaves s s' q) : q.Knows s' := by
  have hclock := h.clock
  have hstill {now recvWait : ℤ} {id : SessionID} (hread : now ≤ s.clock ∧
      id ∈ s.slot.accepted ∧ s.acceptedAt id ≤ now - recvWait) :
      now ≤ s'.clock ∧ id ∈ s'.slot.accepted ∧ s'.acceptedAt id ≤ now - recvWait := by
    obtain ⟨hnow, hacc, hat⟩ := hread
    obtain ⟨hacc', hsame⟩ := h.accepted id hacc
    exact ⟨hnow.trans hclock, hacc', hsame ▸ hat⟩
  cases q with
  | checkZero | checkRef | increaseRef | readLastRecv | resetRecv | resetSend =>
    exact le_trans hk hclock
  | readLastSend | compareRecv => exact hstill hk
  | readNeedCheck now recvWait sendWait id ended =>
    obtain ⟨hread, hle, hown⟩ := hk
    refine ⟨hstill hread, hle.trans h.ended, fun hneed hend => ?_⟩
    have hsame : s'.ended = s.ended := le_antisymm (hend ▸ hle) h.ended
    obtain ⟨x, hx, hx'⟩ := hown (h.flag rfl hneed) (hend.trans hsame)
    exact ⟨x, h.sends hsame x hx, hx'⟩
  | compareSend now recvWait sendWait id ended =>
    obtain ⟨hread, hle, hown⟩ := hk
    refine ⟨hstill hread, hle.trans h.ended, fun hend => ?_⟩
    have hsame : s'.ended = s.ended := le_antisymm (hend ▸ hle) h.ended
    obtain ⟨x, hx, hx'⟩ := hown (hend.trans hsame)
    exact ⟨x, h.sends hsame x hx, hx'⟩
  | checked q id result =>
    refine ⟨hk.1, fun info hinfo => ?_⟩
    obtain rfl := Option.mem_def.1 hinfo
    obtain ⟨hid, hc⟩ := hk.2 info hinfo
    exact ⟨(h.name rfl).trans hid, h.charged (by simp [Pc.charges]) hc⟩
  | getSessionId id info =>
    exact ⟨(h.name rfl).trans hk.1, h.charged (by simp [Pc.charges]) hk.2⟩
  | onSessionTimeout id info => exact h.charged (by simp [Pc.charges]) hk
  | _ => trivial

theorem Leaves.of_eq {q : Pc Buf} (hclock : s.clock ≤ s'.clock)
    (hacc : s'.slot.accepted = s.slot.accepted) (hid : s'.slot.sessionId = s.slot.sessionId)
    (hat : s'.acceptedAt = s.acceptedAt) (hrecv : s'.recvAt = s.recvAt)
    (hsends : s'.sends = s.sends) (hended : s'.ended = s.ended)
    (hflag : s'.needCheckSendTimeout = true → s.needCheckSendTimeout = true) :
    Leaves s s' q where
  clock := hclock
  accepted id hmem := ⟨hacc ▸ hmem, by rw [hat]⟩
  name _ := hid
  flag _ := hflag
  ended := hended.ge
  sends _ x hx := hsends ▸ hx
  recv id _ := by rw [hrecv]
  send id _ x hx _ := hsends ▸ hx

/-- A step of the slot leaves another thread what it knows: a new session is
none it knows of, and no send ends that is being charged. -/
theorem leaves_slot {threads : List (Pc Buf)} {q q' : Slot.Pc Buf} {e : Slot.Event Buf} {i : ℕ}
    {r : Slot Buf} {p : Pc Buf} (hnext : Slot.next index s.slot q e = some (r, q'))
    (hcare : s.Careful threads (.slot q) (.slot e i)) (hp : p ∈ threads)
    (hfresh : q = .acceptOffFlag → s.slot.sessionId ∉ s.slot.accepted) :
    Leaves s { s.observe q e i with slot := r } p := by
  have hnaming := Slot.next_naming hnext
  have hacc : ∀ id ∈ s.slot.accepted, id ∈ r.accepted := fun _ => hnaming.accepted_mem
  have hname (hun : p.unnamed = true) : r.sessionId = s.slot.sessionId := by
    rcases hnaming.sessionId_cases with hid | ⟨id, rfl, -⟩
    · exact hid
    · rw [hcare p hp] at hun
      cases hun
  by_cases hopen : q = .acceptOffFlag
  · subst hopen
    exact {
      clock := le_rfl
      accepted := fun id hmem =>
        ⟨hacc id hmem, Function.update_of_ne
          (fun heq : id = s.slot.sessionId => hfresh rfl (heq ▸ hmem)) _ _⟩
      name := hname
      flag := fun _ h => h
      ended := le_rfl
      sends := fun _ _ hx => hx
      recv := fun _ _ => rfl
      send := fun _ _ _ hx _ => hx }
  by_cases hend : endsSend q e = true
  · have hobs : s.observe q e i = { s with sends := s.sends.eraseIdx i, ended := s.ended + 1 } := by
      unfold observe
      split
      · exact absurd rfl hopen
      · rw [if_pos hend]
    have hmind : ∀ x ∈ s.sends[i]?, p.charges .send x.1 = false := fun x hx => by
      cases q with
      | idle | wsaSend => exact hcare hend x hx p hp
      | _ => cases hend
    rw [hobs]
    refine ⟨le_rfl, fun id hmem => ⟨hacc id hmem, rfl⟩, hname, fun _ h => h, Nat.le_succ _,
      fun h => absurd h (Nat.succ_ne_self _), fun _ _ => rfl, fun id hq x hx hxid => ?_⟩
    obtain ⟨j, hj⟩ := List.mem_iff_getElem?.1 hx
    refine List.mem_eraseIdx_iff_getElem?.2 ⟨j, fun hji => ?_, hj⟩
    rw [hji] at hj
    have hnot := hmind x hj
    rw [hxid, hq] at hnot
    cases hnot
  · have hobs : s.observe q e i = s := by
      unfold observe
      split
      · exact absurd rfl hopen
      · rw [if_neg hend]
    rw [hobs]
    exact ⟨le_rfl, fun id hmem => ⟨hacc id hmem, rfl⟩, hname, fun _ h => h, le_rfl,
      fun _ _ hx => hx, fun _ _ => rfl, fun _ _ _ hx _ => hx⟩

/-- A step of `CheckTimeout`'s own `Release` opens no session and gives the
slot no other id. -/
theorem releases_next {a b : Slot Buf} {q q' : Slot.Pc Buf} (hq : releases q = true)
    (h : Slot.next index a q .go = some (b, q')) :
    b.accepted = a.accepted ∧ b.sessionId = a.sessionId ∧ (q' = .idle ∨ releases q' = true) := by
  unfold releases at hq
  split at hq
  case h_1 pin =>
    obtain ⟨rfl, rfl⟩ := Prod.mk.inj (Option.some.inj h)
    refine ⟨rfl, rfl, ?_⟩
    split
    · exact .inr rfl
    · exact .inl rfl
  case h_2 =>
    simp only [Slot.next, Slot.nextRef] at h
    split at h <;> obtain ⟨rfl, rfl⟩ := Prod.mk.inj (Option.some.inj h)
    · exact ⟨rfl, rfl, .inr rfl⟩
    · exact ⟨rfl, rfl, .inl rfl⟩
  case h_3 =>
    obtain ⟨rfl, rfl⟩ := Prod.mk.inj (Option.some.inj h)
    exact ⟨rfl, rfl, .inl rfl⟩
  case h_4 => cases hq

/-- **What an action leaves another thread**, where it minds the condition. -/
theorem Action.leaves {threads : List (Pc Buf)} {e : Event Buf} {p : Pc Buf}
    (h : Action index s pc e s' pc') (hcare : s.Careful threads pc e) (hp : p ∈ threads)
    (hfresh : pc = .slot .acceptOffFlag → s.slot.sessionId ∉ s.slot.accepted)
    (hknows : pc.Knows s) : Leaves s s' p := by
  cases h
  case slot hnext hends => exact leaves_slot hnext hcare hp fun heq => hfresh (heq ▸ rfl)
  case tick d => exact .of_eq (by simp) rfl rfl rfl rfl rfl rfl fun h => h
  case needCheck c bufs =>
    refine ⟨le_rfl, fun id hmem => ⟨hmem, rfl⟩, fun _ => rfl, fun hreads => ?_, le_rfl,
      fun _ _ hx => hx, fun _ _ => rfl, fun _ _ _ hx _ => hx⟩
    rw [hcare p hp] at hreads
    cases hreads
  case lastSend c bufs =>
    exact ⟨le_rfl, fun id hmem => ⟨hmem, rfl⟩, fun _ => rfl, fun _ h => h, le_rfl,
      fun _ _ hx => List.mem_append_left _ hx, fun _ _ => rfl,
      fun _ _ _ hx _ => List.mem_append_left _ hx⟩
  case lastRecv =>
    refine ⟨le_rfl, fun id hmem => ⟨hmem, rfl⟩, fun _ => rfl, fun _ h => h, le_rfl,
      fun _ _ hx => hx, fun id hq => ?_, fun _ _ _ hx _ => hx⟩
    refine Function.update_of_ne (fun heq : id = s.slot.sessionId => ?_) _ _
    have hnot := hcare p hp
    rw [← heq, hq] at hnot
    cases hnot
  case clearNeedCheck | resetNeedCheck => exact .of_eq le_rfl rfl rfl rfl rfl rfl rfl nofun
  case checked hnext _ | answered hnext | inTime hnext =>
    obtain ⟨hacc, hid, -⟩ := releases_next hknows.1 hnext
    exact .of_eq le_rfl hacc hid rfl rfl rfl rfl fun h => h
  all_goals exact .of_eq le_rfl rfl rfl rfl rfl rfl rfl fun h => h

/-! ## The invariant -/

/-- A wait of more than `t` milliseconds is one of more than `t` million
nanoseconds. -/
theorem lt_of_lt_milliseconds {t d : ℤ} (h : t < milliseconds d) : t * 1000000 < d := by
  unfold milliseconds at h
  rcases le_or_gt 0 d with hd | hd
  · rw [Int.tdiv_eq_ediv_of_nonneg hd] at h
    omega
  · have hneg : d = -(-d) := (neg_neg d).symm
    rw [hneg, Int.neg_tdiv, Int.tdiv_eq_ediv_of_nonneg (by omega)] at h
    omega

/-- The clock's fields are times of the past, no earlier than what they stand
for. -/
structure Past (s : Timed Buf) : Prop where
  lastRecv : s.lastRecv ≤ s.clock
  lastSend : s.lastSend ≤ s.clock
  recvAt : ∀ id, s.recvAt id ≤ s.lastRecv
  sends : ∀ x ∈ s.sends, x.2 ≤ s.lastSend

theorem Action.past {threads : List (Pc Buf)} {e : Event Buf} (h : Action index s pc e s' pc')
    (hp : Past s) (hcare : s.Careful threads pc e) (hknows : pc.Knows s) : Past s' := by
  obtain ⟨hrecv, hsend, hat, hsends⟩ := hp
  cases h
  case slot q q' e i r hnext hends =>
    unfold observe
    split
    · exact ⟨hrecv, hsend, hat, hsends⟩
    · split
      · exact ⟨hrecv, hsend, hat, fun x hx => hsends x (List.mem_of_mem_eraseIdx hx)⟩
      · exact ⟨hrecv, hsend, hat, hsends⟩
  case tick d =>
    exact ⟨hrecv.trans (by simp), hsend.trans (by simp), hat, hsends⟩
  case lastSend c bufs =>
    refine ⟨hrecv, le_rfl, hat, fun x hx => ?_⟩
    rcases List.mem_append.1 hx with hx | hx
    · exact (hsends x hx).trans hsend
    · rw [List.mem_singleton.1 hx]
  case lastRecv =>
    refine ⟨le_rfl, hsend, fun id => ?_, hsends⟩
    by_cases hid : id = s.slot.sessionId
    · subst hid
      exact (Function.update_self ..).le
    · exact (Function.update_of_ne hid ..).le.trans ((hat id).trans hrecv)
  case resetRecv now => exact ⟨hknows, hsend, fun id => (hat id).trans hcare, hsends⟩
  case resetSend now => exact ⟨hrecv, hknows, hat, fun x hx => (hsends x hx).trans hcare⟩
  all_goals exact ⟨hrecv, hsend, hat, hsends⟩

/-- **What a thread has read, it knows.** -/
theorem Action.knows {threads : List (Pc Buf)} {e : Event Buf} (h : Action index s pc e s' pc')
    (hp : Past s) (hcare : s.Careful threads pc e) (hknows : pc.Knows s)
    (hheld : ∀ id ∈ pc.onSlot.held, s.slot.sessionId = id ∧ id ∈ s.slot.accepted) :
    pc'.Knows s' := by
  cases h
  case slot q q' e i r hnext hends => unfold enter; split <;> trivial
  case timeoutThread => exact le_refl s.clock
  case readLastRecv now id =>
    refine ⟨hknows, (hheld id List.mem_cons_self).2, ?_⟩
    have hfirst : s.acceptedAt id ≤ s.lastRecv := hcare
    omega
  case readLastSend now recvWait id =>
    refine ⟨hknows, le_rfl, fun hneed _ => ?_⟩
    obtain ⟨x, hx, hid⟩ := hcare hneed
    have := hp.sends x hx
    exact ⟨x, hx, hid, by omega⟩
  case needed now recvWait sendWait id ended hneed =>
    obtain ⟨hread, hle, hown⟩ := hknows
    exact ⟨hread, hle, hown hneed⟩
  case notNeeded => exact hknows.1
  case sendInTime => exact hknows.1
  case sendTimeout now recvWait sendWait id ended hlong =>
    obtain ⟨⟨hnow, hacc, -⟩, -, hown⟩ := hknows
    obtain ⟨x, hx, hid, hstart⟩ := hown (hcare hlong).symm
    have hwait := lt_of_lt_milliseconds hlong
    refine ⟨rfl, fun info hinfo => ⟨(hheld id List.mem_cons_self).1, ?_⟩⟩
    obtain rfl := Option.some.inj hinfo
    exact ⟨hacc, x, hx, hid, by simp only; omega⟩
  case recvTimeout now recvWait id hlong =>
    obtain ⟨hnow, hacc, hat⟩ := hknows
    have hsame : s.lastRecv = now - recvWait := hcare hlong
    have hrecv := hp.recvAt id
    have hwait := lt_of_lt_milliseconds hlong
    refine ⟨rfl, fun info hinfo => ⟨(hheld id List.mem_cons_self).1, ?_⟩⟩
    obtain rfl := Option.some.inj hinfo
    exact ⟨hacc, by simp only; omega⟩
  case recvInTime => exact ⟨rfl, nofun⟩
  case checked q q' r id result hnext hbusy =>
    obtain ⟨hacc, hid, hrel⟩ := releases_next hknows.1 hnext
    refine ⟨hrel.resolve_left hbusy, fun info hinfo => ?_⟩
    obtain ⟨hname, hc⟩ := hknows.2 info hinfo
    exact ⟨hid.trans hname, Charged.of_accepted hacc hc⟩
  case answered q r id info hnext =>
    obtain ⟨hacc, hid, -⟩ := releases_next hknows.1 hnext
    obtain ⟨hname, hc⟩ := hknows.2 info rfl
    exact ⟨hid.trans hname, Charged.of_accepted hacc hc⟩
  case getSessionId id info =>
    change s.Charged s.slot.sessionId info
    rw [hknows.1]
    exact hknows.2
  case resetNow => exact le_refl s.clock
  case inTime | onSessionTimeout => trivial
  all_goals first
    | exact hknows
    | trivial

/-- The slot below is sound, the clock's fields are of the past, and every
thread knows what it has read. -/
structure Fair (index : ℕ) (w : World Buf) : Prop where
  sound : Slot.Sound index w.onSlot
  past : Past w.shared
  knows : ∀ pc ∈ w.threads, pc.Knows w.shared

/-- The session a thread holds is in the slot, and was accepted. -/
theorem Fair.held (h : Fair index w) (hpc : pc ∈ w.threads) :
    ∀ id ∈ pc.onSlot.held, w.shared.slot.sessionId = id ∧ id ∈ w.shared.slot.accepted := by
  intro id hid
  obtain ⟨hname, hacc, -⟩ := h.sound.pinned (List.mem_map_of_mem hpc) hid
  refine ⟨hname, ?_⟩
  rw [show w.shared.slot.accepted = _ from hacc]
  exact List.mem_append_right _ List.mem_cons_self

/-- The id the slot is opened under is new. -/
theorem Fair.fresh (h : Fair index w) (hpc : .slot .acceptOffFlag ∈ w.threads) :
    w.shared.slot.sessionId ∉ w.shared.slot.accepted := by
  intro hmem
  have hpc' : Slot.Pc.acceptOffFlag ∈ w.onSlot.threads := List.mem_map_of_mem hpc
  obtain ⟨-, -, hlt⟩ := h.sound.fresh _ hpc' _ rfl
  exact lt_irrefl _ (hlt _ hmem)

/-- **Every step keeps it**, where the threads mind the condition. -/
theorem Fair.step {e : ℕ × Event Buf} (h : Fair index w) (hst : Timed.step index w e = some w')
    (hminds : Minds w e w') : Fair index w' := by
  obtain ⟨pc, pc', hpc, hnext, ht⟩ := Pool.step_eq_some hst
  have hmem := List.mem_of_getElem? hpc
  have hcare : w.shared.Careful w.threads pc e.2 := hminds.2 pc hpc
  have hknows := h.knows pc hmem
  have ha := next_action hnext
  refine ⟨sound_step h.sound hst hminds.1, ha.past h.past hcare hknows, ?_⟩
  refine Pool.forall_threads ht (fun q hq => ?_) (ha.knows h.past hcare hknows (h.held hmem))
  exact (h.knows q hq).mono (ha.leaves hcare hq (fun heq => h.fresh (heq ▸ hmem)) hknows)

theorem Fair.initial [Inhabited Buf] (n : ℕ) : Fair index (World.initial n : World Buf) := by
  refine ⟨?_, ⟨le_rfl, le_rfl, fun _ => le_rfl, nofun⟩, fun pc hpc => ?_⟩
  · have hslot : (World.initial n : World Buf).onSlot = Slot.World.initial n := by
      simp only [World.onSlot, World.initial, List.map_replicate]
      rfl
    rw [hslot]
    exact .initial n
  · rw [(List.mem_replicate.1 hpc).2]
    trivial

/-- `AcceptThread` accepts a session, up to `OffReleaseFlag` and `_connect`. -/
def acceptSession : List (ℕ × Event ℕ) :=
  (0, .slot (.accept 0) 0) :: List.replicate 10 (0, .slot .go 0)

/-- It posts the first receive. -/
def firstRecv : List (ℕ × Event ℕ) :=
  List.replicate 3 (0, .slot .go 0) ++ [(0, .slot (.result .pending) 0), (0, .slot .go 0)]

end Timed

end NetLib
