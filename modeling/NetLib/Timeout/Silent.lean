import NetLib.Timeout.Charge
/-!
# Silent sessions are charged

The other half of the timeouts: a visit of `CheckTimeout` to an open session that
has been silent for too long ends in `OnSessionTimeout` for that session, whatever
the other threads do to the slot meanwhile, as long as the session stays open
and silent. No step of the visit waits for another thread.
-/

namespace NetLib

namespace Timed

variable {Buf : Type} {index : ℕ} {s t : Timed Buf} {w w' : World Buf} {pc q : Pc Buf}
variable {now T : ℤ} {id : SessionID}

/-- Seen from `now`, nothing has been received for longer than `T`, and the
timeout is at most that. -/
structure Silent (now T : ℤ) (s : Timed Buf) : Prop where
  timed : s.timeout ≠ 0
  short : s.timeout ≤ T
  silent : T < milliseconds (now - s.lastRecv)

/-- The slot is open, and takes one more reference. -/
def Open (s : Timed Buf) : Prop := s.slot.refCount + 1 < RELEASE_FLAG

/-- Inside the `Release` of a visit. -/
def Releases : Slot.Pc Buf → Prop
  | .release _ .done | .releaseCas .done | .postRelease .done => True
  | _ => False

/-- What a session that is silent for longer than `T` is charged with: a wait
that is longer than its timeout, and for a receive longer than `T`. -/
structure Overdue (T : ℤ) (info : timeoutInfo) : Prop where
  timed : info.timeoutTime ≠ 0
  short : info.timeoutTime ≤ T
  long : info.timeoutTime < info.waitTime
  silent : info.type = .recv → T < info.waitTime

/-- A visit that has found nothing yet that would let the session off. -/
def Pc.Visits (now T : ℤ) : Pc Buf → Prop
  | .checkZero n | .checkRef n | .increaseRef n | .readLastRecv n _ => n = now
  | .readLastSend _ recvWait _ | .readNeedCheck _ recvWait _ _ _ | .compareSend _ recvWait _ _ _
  | .compareRecv _ recvWait _ => T < milliseconds recvWait
  | .checked p _ (some info) => Releases p ∧ Overdue T info
  | .getSessionId _ info => Overdue T info
  | _ => False

/-- A visit that is about to report the session `id`. -/
def Pc.Reports (id : SessionID) (T : ℤ) : Pc Buf → Prop
  | .onSessionTimeout reported info => reported = id ∧ Overdue T info
  | _ => False

/-- Is `OnSessionTimeout` about to be called? -/
def Pc.calls : Pc Buf → Bool
  | .onSessionTimeout _ _ => true
  | _ => false

/-- How many steps a visit has before it. -/
def Pc.left : Pc Buf → ℕ
  | .checkZero _ => 12
  | .checkRef _ => 11
  | .increaseRef _ => 10
  | .readLastRecv _ _ => 9
  | .readLastSend _ _ _ => 8
  | .readNeedCheck _ _ _ _ _ => 7
  | .compareSend _ _ _ _ _ => 6
  | .compareRecv _ _ _ => 5
  | .checked (.release _ _) _ _ => 4
  | .checked (.releaseCas _) _ _ => 3
  | .checked (.postRelease _) _ _ => 2
  | .getSessionId _ _ => 1
  | _ => 0

/-- What a step of a visit leaves. -/
structure Goes (index : ℕ) (now T : ℤ) (s : Timed Buf) (pc : Pc Buf) (t : Timed Buf) (q : Pc Buf) :
    Prop where
  next : ∀ e, Timed.next index s pc e = some (t, q)
  visits : q.Visits now T ∨ q.Reports s.slot.sessionId T
  left : q.left < pc.left
  timeout : t.timeout = s.timeout
  lastRecv : t.lastRecv = s.lastRecv
  sessionId : t.slot.sessionId = s.slot.sessionId
  /-- Until it has its reference, a visit changes nothing. -/
  refCount : 10 ≤ q.left → t.slot.refCount = s.slot.refCount

/-- The steps that change nothing. -/
theorem exists_goes (q : Pc Buf) (hnext : ∀ e, Timed.next index s pc e = some (s, q))
    (hv : q.Visits now T ∨ q.Reports s.slot.sessionId T) (hleft : q.left < pc.left) :
    ∃ t q, Goes index now T s pc t q :=
  ⟨s, q, hnext, hv, hleft, rfl, rfl, rfl, fun _ => rfl⟩

/-- Where the `Release` of a visit that has its answer leads. -/
def afterRelease (id : SessionID) (info : timeoutInfo) : Slot.Pc Buf → Pc Buf
  | .idle => .getSessionId id info
  | p => .checked p id (some info)

theorem exists_goes_checked {p : Slot.Pc Buf} (id : SessionID) {info : timeoutInfo}
    (hinfo : Overdue T info) (hp : Releases p) :
    ∃ t q, Goes index now T s (.checked p id (some info)) t q := by
  have hnext (r : Slot Buf) (p' : Slot.Pc Buf) (hp : Slot.next index s.slot p .go = some (r, p'))
      (e : Event Buf) : Timed.next index s (.checked p id (some info)) e =
        some ({ s with slot := r }, afterRelease id info p') := by
    refine Option.map_eq_some_iff.2 ⟨(r, p'), hp, ?_⟩
    cases p' <;> rfl
  have hrelease (pin : Option SessionID) : Slot.next index s.slot (.release pin .done) .go =
      some ({ s.slot with refCount := s.slot.refCount - 1 },
        if s.slot.refCount - 1 = 0 then .releaseCas .done else .idle) := rfl
  cases p with
  | release pin k =>
    cases k with
    | done =>
      have hstep := hrelease pin
      split at hstep
      · exact ⟨_, _, hnext _ _ hstep, .inl ⟨trivial, hinfo⟩, by simp [afterRelease, Pc.left], rfl,
          rfl, rfl, by simp [afterRelease, Pc.left]⟩
      · exact ⟨_, _, hnext _ _ hstep, .inl hinfo, by simp [afterRelease, Pc.left], rfl, rfl, rfl,
          by simp [afterRelease, Pc.left]⟩
    | _ => exact absurd hp not_false
  | releaseCas k =>
    cases k with
    | done =>
      by_cases hzero : s.slot.refCount = 0
      · exact ⟨_, _, hnext _ (.postRelease .done) (if_pos hzero), .inl ⟨trivial, hinfo⟩,
          by simp [afterRelease, Pc.left], rfl, rfl, rfl, by simp [afterRelease, Pc.left]⟩
      · exact ⟨_, _, hnext _ .idle (if_neg hzero), .inl hinfo, by simp [afterRelease, Pc.left],
          rfl, rfl, rfl, by simp [afterRelease, Pc.left]⟩
    | _ => exact absurd hp not_false
  | postRelease k =>
    cases k with
    | done =>
      exact ⟨_, _, hnext _ .idle rfl, .inl hinfo, by simp [afterRelease, Pc.left], rfl, rfl, rfl,
        by simp [afterRelease, Pc.left]⟩
    | _ => exact absurd hp not_false
  | _ => exact absurd hp not_false

/-- **Every step of a visit leads on to `OnSessionTimeout`.** -/
theorem Silent.goes (index : ℕ) (hs : s.Silent now T) (hopen : 10 ≤ pc.left → s.Open)
    (hv : pc.Visits now T) : ∃ t q, Goes index now T s pc t q := by
  cases pc with
  | checkZero n =>
    refine exists_goes (.checkRef n) (fun e => ?_) (.inl hv) (by simp [Pc.left])
    change some (s, if s.timeout = 0 then _ else _) = _
    rw [if_neg hs.timed]
  | checkRef n =>
    have hlt : s.slot.refCount + 1 < RELEASE_FLAG := hopen (by simp [Pc.left])
    refine exists_goes (.increaseRef n) (fun e => ?_) (.inl hv) (by simp [Pc.left])
    change some (s, if RELEASE_FLAG ≤ s.slot.refCount then _ else _) = _
    rw [if_neg (by omega)]
  | increaseRef n =>
    have hlt : s.slot.refCount + 1 < RELEASE_FLAG := hopen (by simp [Pc.left])
    refine ⟨{ s with slot := { s.slot with refCount := s.slot.refCount + 1 } },
      .readLastRecv n s.slot.sessionId, fun e => ?_, .inl hv, by simp [Pc.left], rfl, rfl, rfl, ?_⟩
    · change some (_, if RELEASE_FLAG ≤ s.slot.refCount + 1 then _ else _) = _
      rw [if_neg (by omega)]
    · simp [Pc.left]
  | readLastRecv n id =>
    obtain rfl : n = now := hv
    exact exists_goes (.readLastSend n (n - s.lastRecv) id) (fun e => rfl) (.inl hs.silent)
      (by simp [Pc.left])
  | readLastSend n recvWait id =>
    exact exists_goes (.readNeedCheck n recvWait (n - s.lastSend) id s.ended) (fun e => rfl)
      (.inl hv) (by simp [Pc.left])
  | readNeedCheck n recvWait sendWait id ended =>
    by_cases hneed : s.needCheckSendTimeout = true
    · refine exists_goes (.compareSend n recvWait sendWait id ended) (fun e => ?_) (.inl hv)
        (by simp [Pc.left])
      change some (s, if s.needCheckSendTimeout then _ else _) = _
      rw [if_pos hneed]
    · refine exists_goes (.compareRecv n recvWait id) (fun e => ?_) (.inl hv) (by simp [Pc.left])
      change some (s, if s.needCheckSendTimeout then _ else _) = _
      rw [if_neg hneed]
  | compareSend n recvWait sendWait id ended =>
    by_cases hlong : s.timeout < milliseconds sendWait
    · refine exists_goes (.checked (.release (some id) .done) id
        (some ⟨.send, milliseconds sendWait, s.timeout⟩)) (fun e => ?_)
        (.inl ⟨trivial, hs.timed, hs.short, hlong, nofun⟩) (by simp [Pc.left])
      change some (s, if s.timeout < milliseconds sendWait then _ else _) = _
      rw [if_pos hlong]
    · refine exists_goes (.compareRecv n recvWait id) (fun e => ?_) (.inl hv) (by simp [Pc.left])
      change some (s, if s.timeout < milliseconds sendWait then _ else _) = _
      rw [if_neg hlong]
  | compareRecv n recvWait id =>
    have hlong : s.timeout < milliseconds recvWait := hs.short.trans_lt hv
    refine exists_goes (.checked (.release (some id) .done) id
      (some ⟨.recv, milliseconds recvWait, s.timeout⟩)) (fun e => ?_)
      (.inl ⟨trivial, hs.timed, hs.short, hlong, fun _ => hv⟩) (by simp [Pc.left])
    change some (s, Pc.checked _ id (if s.timeout < milliseconds recvWait then _ else _)) = _
    rw [if_pos hlong]
  | checked p id result =>
    cases result with
    | some info => exact exists_goes_checked id hv.2 hv.1
    | none => exact absurd hv not_false
  | getSessionId id info =>
    exact exists_goes (.onSessionTimeout s.slot.sessionId info) (fun e => rfl) (.inr ⟨rfl, hv⟩)
      (by simp [Pc.left])
  | _ => exact absurd hv not_false

/-! ## Runs -/

/-- The slot is that of the session `id`, which stays open and silent, and the
visit has not come to its callback. -/
def Waits (i : ℕ) (id : SessionID) (now T : ℤ) (w : World Buf) (_ : ℕ × Event Buf)
    (_ : World Buf) : Prop :=
  w.shared.slot.sessionId = id ∧ w.shared.Silent now T ∧ w.shared.Open ∧
    w.threads[i]?.all (fun pc => !pc.calls) = true

instance decidableSilent (now T : ℤ) (s : Timed Buf) : Decidable (s.Silent now T) :=
  decidable_of_iff (s.timeout ≠ 0 ∧ s.timeout ≤ T ∧ T < milliseconds (now - s.lastRecv))
    ⟨fun h => ⟨h.1, h.2.1, h.2.2⟩, fun h => ⟨h.timed, h.short, h.silent⟩⟩

instance decidableOpen (s : Timed Buf) : Decidable s.Open :=
  inferInstanceAs (Decidable (_ < RELEASE_FLAG))

instance decidableWaits (i : ℕ) (id : SessionID) (now T : ℤ) (w : World Buf) (e : ℕ × Event Buf)
    (w' : World Buf) : Decidable (Waits i id now T w e w') :=
  inferInstanceAs (Decidable (_ ∧ _ ∧ _ ∧ _))

theorem Pc.Reports.eq_onSessionTimeout (h : pc.Reports id T) :
    ∃ info, pc = .onSessionTimeout id info ∧ Overdue T info := by
  cases pc with
  | onSessionTimeout reported info =>
    obtain ⟨rfl, hinfo⟩ := h
    exact ⟨info, rfl, hinfo⟩
  | _ => exact absurd h not_false

/-- Alone, the visit comes to its callback. -/
theorem Silent.solo (hs : s.Silent now T) (hid : s.slot.sessionId = id)
    (hopen : 10 ≤ pc.left → s.Open) (hv : pc.Visits now T ∨ pc.Reports id T) :
    ∃ n t info, n ≤ pc.left ∧
      Pool.solo (Timed.next index) s pc (List.replicate n .go) =
        some (t, .onSessionTimeout id info) ∧ Overdue T info := by
  induction hn : pc.left using Nat.strong_induction_on generalizing s pc with
  | _ n ih =>
  rcases hv with hv | hreports
  · obtain ⟨t, q, hgoes⟩ := hs.goes index hopen hv
    have hleft := hgoes.left
    have ht : t.Silent now T := by
      refine ⟨?_, ?_, ?_⟩
      · rw [hgoes.timeout]
        exact hs.timed
      · rw [hgoes.timeout]
        exact hs.short
      · rw [hgoes.lastRecv]
        exact hs.silent
    have htopen : 10 ≤ q.left → t.Open := by
      intro hq
      unfold Open
      rw [hgoes.refCount hq]
      exact hopen (by omega)
    obtain ⟨m, u, info, hm, hsolo, hinfo⟩ := ih q.left (hn ▸ hleft) ht
      (hgoes.sessionId.trans hid) htopen (hid ▸ hgoes.visits) rfl
    refine ⟨m + 1, u, info, by omega, ?_, hinfo⟩
    exact Option.bind_eq_some_iff.2 ⟨(t, q), hgoes.next .go, hsolo⟩
  · obtain ⟨info, rfl, hinfo⟩ := hreports.eq_onSessionTimeout
    exact ⟨0, s, info, Nat.zero_le _, rfl, hinfo⟩

theorem Pc.left_le (pc : Pc Buf) : pc.left ≤ 12 := by
  unfold Pc.left
  split <;> omega

/-- **A silent session is charged.** A visit to an open session that is silent
for too long, and stays so, comes to `OnSessionTimeout` for that session, alone
and in at most twelve steps, from wherever the others have let it come to. -/
theorem silent_charged {i : ℕ} (hvisit : w.threads[i]? = some (.checkZero now))
    (h : Runs (Timed.step index) (Waits i id now T) w w')
    (hend : w'.shared.slot.sessionId = id ∧ w'.shared.Silent now T ∧ w'.shared.Open) :
    ∃ pc, w'.threads[i]? = some pc ∧ ∃ n s info, n ≤ 12 ∧
      Pool.solo (Timed.next index) w'.shared pc (List.replicate n .go) =
        some (s, .onSessionTimeout id info) ∧ Overdue T info := by
  have hvisits : ∃ pc, w'.threads[i]? = some pc ∧ (pc.Visits now T ∨ pc.Reports id T) := by
    refine h.invariant
      (I := fun v => ∃ pc, v.threads[i]? = some pc ∧ (pc.Visits now T ∨ pc.Reports id T))
      ⟨_, hvisit, .inl rfl⟩ ?_
    intro v u e hv hst hwaits
    obtain ⟨pc, hpc, hv⟩ := hv
    obtain ⟨p, p', hp, hnext, ht⟩ := Pool.step_eq_some hst
    by_cases hi : e.1 = i
    · subst hi
      obtain rfl := Option.some.inj (hp.symm.trans hpc)
      obtain ⟨hid, hsilent, hopen, huncalled⟩ := hwaits
      have hv := hv.resolve_right fun hreports => by
        obtain ⟨info, rfl, -⟩ := hreports.eq_onSessionTimeout
        simp [hpc, Pc.calls] at huncalled
      obtain ⟨t, q, hgoes⟩ := hsilent.goes index (fun _ => hopen) hv
      obtain ⟨-, rfl⟩ := Prod.mk.inj (Option.some.inj ((hgoes.next e.2).symm.trans hnext))
      refine ⟨q, ?_, hid ▸ hgoes.visits⟩
      rw [ht, List.getElem?_set_self (List.getElem?_eq_some_iff.1 hp).1]
    · refine ⟨pc, ?_, hv⟩
      rw [ht, List.getElem?_set_ne hi]
      exact hpc
  obtain ⟨pc, hpc, hv⟩ := hvisits
  obtain ⟨hid, hsilent, hopen⟩ := hend
  obtain ⟨n, s, info, hn, hsolo, hinfo⟩ := hsilent.solo hid (fun _ => hopen) hv
  exact ⟨pc, hpc, n, s, info, hn.trans pc.left_le, hsolo, hinfo⟩

/-- A session that has sent nothing for six seconds is visited, -/
def visitSession : List (ℕ × Event ℕ) :=
  acceptSession ++ firstRecv ++ [(0, .tick 6000000000), (1, .timeoutThread)]

/-- and meanwhile another thread finds it to send a packet. -/
def sendBeside : List (ℕ × Event ℕ) :=
  [(1, .go), (1, .go), (0, .slot (.sendPacket ⟨1, 7⟩ 9) 0), (1, .go), (0, .slot .go 0), (1, .go),
    (0, .slot .go 0)]

theorem silent_charged_busy : ∃ w : World ℕ,
    exec (Timed.step 7) (World.initial 2) (visitSession ++ sendBeside) = some w ∧
      w.shared.slot.refCount = 3 ∧ ∃ pc, w.threads[1]? = some pc ∧ ∃ n s info, n ≤ 12 ∧
        Pool.solo (Timed.next 7) w.shared pc (List.replicate n .go) =
          some (s, .onSessionTimeout ⟨1, 7⟩ info) ∧ Overdue 5000 info := by
  obtain ⟨w, hw, hvisit⟩ := Option.map_eq_some_iff.1 (show
    (exec (Timed.step 7) (World.initial 2) visitSession).map (fun w => w.threads[1]?) =
      some (some (.checkZero 6000000000)) by rfl)
  obtain ⟨w', hw', heq⟩ := Option.map_eq_some_iff.1 (show
    (exec (Timed.step 7) (World.initial 2) (visitSession ++ sendBeside)).map
      (fun w => (decide (w.shared.slot.sessionId = ⟨1, 7⟩ ∧ w.shared.Silent 6000000000 5000 ∧
        w.shared.Open), w.shared.slot.refCount)) = some (true, 3) by rfl)
  obtain ⟨hend, hcount⟩ := Prod.mk.inj heq
  obtain ⟨v, hv, hbeside⟩ := exec_append_iff.1 hw'
  obtain rfl := Option.some.inj (hv.symm.trans hw)
  have hmeets : execMeets (Timed.step 7) (Waits 1 ⟨1, 7⟩ 6000000000 5000) v sendBeside = true := by
    have hall : ((exec (Timed.step 7) (World.initial 2) visitSession).map fun v =>
        execMeets (Timed.step 7) (Waits 1 ⟨1, 7⟩ 6000000000 5000) v sendBeside) = some true := by
      decide +kernel
    rw [hw, Option.map_some] at hall
    exact Option.some.inj hall
  exact ⟨w', hw', hcount,
    silent_charged hvisit (runs_of_exec hbeside hmeets) (of_decide_eq_true hend)⟩

end Timed

end NetLib
