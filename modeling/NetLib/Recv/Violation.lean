import NetLib.Recv.Hands
/-!
# After a protocol violation

A handler closes a session whose peer sends a wrong packet code, a length
beyond the limit or a bad checksum, or whose packet callback reads past its
payload. Nothing looks at `_connect` before the next packet is delivered:
what keeps the callbacks from going on is only what the violation leaves at
the front of the ring. A refused header stays there and is refused again. A
packet with a bad checksum stays there decoded, and is decoded once more; a
callback that threw leaves the rest of its payload.
-/

namespace NetLib

namespace Recv

variable {s s' : Recv} {w w' : World} {pc pc' : Pc}

/-- The packet of the header `bytes` at the front is complete, and its
checksum is not the one of the packet decoded. -/
def Corrupt (s : Recv) (bytes : List Byte) : Prop :=
  s.header = .NetHeader ∧ s.header.len bytes + s.header.size ≤ s.recvQ.size ∧
    ∃ plain, s.recvQ.decode s.staticKey = some plain ∧ plain.checksumValid = some false

/-- The packet of the header `bytes` at the front is one to call the packet
callback on. -/
def Delivers (s : Recv) (bytes : List Byte) : Prop :=
  s.header.refuses s.maxPacketLen bytes = false ∧
    s.header.len bytes + s.header.size ≤ s.recvQ.size ∧
    (s.header = .NetHeader →
      ∃ plain, s.recvQ.decode s.staticKey = some plain ∧ plain.checksumValid = some true)

/-- Whatever header is at the front, its packet is not delivered. -/
def Barren (s : Recv) : Prop :=
  ∀ bytes, s.recvQ.peek s.header.size = some bytes → ¬ Delivers s bytes

/-- Is a handler in the middle of a packet? -/
def Pc.midPacket : Pc → Bool
  | .packet _ _ | .callback _ _ _ | .disconnect _ => true
  | _ => false

/-- Will the thread run no handler on a closed session for which no job is
queued? -/
def Pc.Leaves : Pc → Prop
  | .idle | .recvConnect | .recvDirect | .recvFree _ | .recvSecond _ | .wsaRecv _
  | .handleJob _ => True
  | _ => False

/-- Nobody is about to look at the ring again. -/
def Deserted (w : World) : Prop :=
  (∀ pc ∈ w.threads, pc.Leaves) ∧ ∀ g, w.shared.jobs g = 0

/-- The thread is not about to call the packet callback, or inside it. -/
def Pc.Spent (s : Recv) : Pc → Prop
  | .packet _ bytes => ¬ Delivers s bytes
  | .callback _ _ _ | .disconnect _ => False
  | _ => True

/-- Does the handler close the session here? -/
def Pc.Closes (s : Recv) : Pc → Prop
  | .packet _ bytes => s.header.refuses s.maxPacketLen bytes = true ∨ Corrupt s bytes
  | .disconnect _ => True
  | _ => False

/-- Do bytes come into the ring here? -/
def Pc.Receives : Pc → Event → Prop
  | .idle, .complete _ => True
  | .moveRear _, _ => True
  | _, _ => False

/-! ## What a step does to the packet at the front -/

theorem Delivers.congr {bytes : List Byte} (hq : s'.recvQ = s.recvQ)
    (hkey : s'.staticKey = s.staticKey) (hmax : s'.maxPacketLen = s.maxPacketLen)
    (h : Delivers s' bytes) : Delivers s bytes := by
  have hheader : s'.header = s.header := by rw [header, header, hkey]
  rwa [Delivers, hq, hkey, hmax, hheader] at h

theorem Barren.congr (h : Barren s) (hq : s'.recvQ = s.recvQ) (hkey : s'.staticKey = s.staticKey)
    (hmax : s'.maxPacketLen = s.maxPacketLen) : Barren s' := by
  intro bytes hpeek hdel
  have hheader : s'.header = s.header := by rw [header, header, hkey]
  rw [hq, hheader] at hpeek
  exact h bytes hpeek (hdel.congr hq hkey hmax)

theorem Pc.Spent.congr (h : pc.Spent s) (hq : s'.recvQ = s.recvQ)
    (hkey : s'.staticKey = s.staticKey) (hmax : s'.maxPacketLen = s.maxPacketLen) :
    pc.Spent s' := by
  cases pc with
  | packet g bytes => exact fun hdel => h (hdel.congr hq hkey hmax)
  | callback | disconnect => exact h
  | _ => trivial

/-- **A refused header bars the ring**, as long as it is at the front. -/
theorem Barren.of_refused {bytes : List Byte} (hpeek : s.recvQ.peek s.header.size = some bytes)
    (href : s.header.refuses s.maxPacketLen bytes = true) : Barren s := by
  intro bytes' hpeek' hdel
  obtain rfl := Option.some.inj (hpeek.symm.trans hpeek')
  have := hdel.1
  rw [href] at this
  cases this

/-- Who changes the ring: a receive, a handler at a packet, and the packet
callback. -/
theorem Action.ring {e : Event} (h : Action s pc e s' pc') :
    s'.staticKey = s.staticKey ∧ s'.maxPacketLen = s.maxPacketLen ∧
      (s'.recvQ = s.recvQ ∨ pc.Receives e ∨ pc.Closes s ∨ ¬ pc.Spent s) := by
  cases h
  case complete | moveRear => exact ⟨rfl, rfl, .inr (.inl trivial)⟩
  case invalid recvQ hkey _ hsize hdecode hvalid =>
    exact ⟨rfl, rfl, .inr (.inr (.inl (.inr ⟨hkey, hsize, recvQ, hdecode, hvalid⟩)))⟩
  case deliver plain _ href hsize _ hdecode _ =>
    exact ⟨rfl, rfl, .inr (.inr (.inr fun h => h ⟨href, hsize, fun hkey =>
      ⟨plain, hdecode hkey⟩⟩))⟩
  case read => exact ⟨rfl, rfl, .inr (.inr (.inr id))⟩
  all_goals exact ⟨rfl, rfl, .inl rfl⟩

/-- Only a handler at a packet calls the packet callback. -/
theorem Action.calls {e : Event} (h : Action s pc e s' pc') (hspent : pc.Spent s) :
    s'.calls = s.calls := by
  cases h
  case deliver plain _ href hsize _ hdecode _ =>
    exact absurd ⟨href, hsize, fun hkey => ⟨plain, hdecode hkey⟩⟩ hspent
  all_goals rfl

/-- A closed session stays closed, and a handler that closes it says so. -/
theorem Action.violated {e : Event} (h : Action s pc e s' pc') :
    (s.connect = false → s'.connect = false) ∧
      (s'.violated = s.violated ∨ pc.Closes s ∧ s'.violated = true ∧ s'.connect = false) := by
  cases h
  case refused href => exact ⟨fun _ => rfl, .inr ⟨.inl href, rfl, rfl⟩⟩
  case invalid recvQ hkey _ hsize hdecode hvalid =>
    exact ⟨fun _ => rfl, .inr ⟨.inr ⟨hkey, hsize, recvQ, hdecode, hvalid⟩, rfl, rfl⟩⟩
  case disconnect => exact ⟨fun _ => rfl, .inr ⟨trivial, rfl, rfl⟩⟩
  case close => exact ⟨fun _ => rfl, .inl rfl⟩
  all_goals exact ⟨id, .inl rfl⟩

/-- Where nobody is about to look, a step that receives nothing leaves it
so. -/
theorem Action.leaves {e : Event} (h : Action s pc e s' pc') (hpc : pc.Leaves)
    (hjobs : ∀ g, s.jobs g = 0) (hc : s.connect = false) (hrecv : ¬ pc.Receives e) :
    pc'.Leaves ∧ ∀ g, s'.jobs g = 0 := by
  cases h
  case complete => exact absurd trivial hrecv
  case connected hc' => simp [hc] at hc'
  case job g hjob => exact absurd (hjobs g) hjob.ne'
  all_goals first | exact ⟨trivial, hjobs⟩ | exact hpc.elim

/-- A handler that closes the session is done with the packet, and leaves a
refused one as it is. -/
theorem Action.closes {e : Event} (h : Action s pc e s' pc') (hcloses : pc.Closes s) :
    pc'.midPacket = false ∧ ∀ g bytes, pc = .packet g bytes →
      s.header.refuses s.maxPacketLen bytes = true → s'.recvQ = s.recvQ := by
  have hafter (g : GroupID) : (after g).midPacket = false := by
    unfold after
    split <;> rfl
  cases h
  case refused | short => exact ⟨hafter _, fun _ _ _ _ => rfl⟩
  case invalid href _ _ _ =>
    refine ⟨hafter _, fun g' bytes' heq href' => ?_⟩
    cases heq
    rw [href] at href'
    cases href'
  case deliver plain _ href hsize hplain hdecode hdequeue =>
    -- it is neither refused nor corrupt
    rcases hcloses with href' | ⟨hkey, -, plain', hdecode', hinvalid⟩
    · rw [href] at href'
      cases href'
    · obtain ⟨hplain, hvalid⟩ := hdecode hkey
      obtain rfl := Option.some.inj (hplain.symm.trans hdecode')
      rw [hvalid] at hinvalid
      cases hinvalid
  case disconnect => exact ⟨rfl, fun _ _ heq => by cases heq⟩
  all_goals exact hcloses.elim

/-- A handler that looks at a ring with nothing to deliver sees that. -/
theorem Action.spent {e : Event} (h : Action s pc e s' pc') (hspent : pc.Spent s)
    (hfront : Barren s ∨ pc.Leaves) : pc'.Spent s := by
  have hafter (g : GroupID) : (after g).Spent s := by
    unfold after
    split <;> trivial
  cases h
  case peek hpeek => exact hfront.elim (fun hbarren => hbarren _ hpeek) False.elim
  case otherGroup | noHeader | refused | short | invalid => exact hafter _
  case deliver plain _ href hsize _ hdecode _ =>
    exact absurd ⟨href, hsize, fun hkey => ⟨plain, hdecode hkey⟩⟩ hspent
  case threw | read => exact hspent.elim
  all_goals trivial

/-! ## Runs -/

/-- A handler that closes the session is the only one in the middle of a
packet, and the header it has read is still at the front. What it leaves
there is no packet to deliver, if somebody is about to look again; and
neither is what bytes make of it that come later. -/
structure Bars (w : World) (e : ℕ × Event) (w' : World) : Prop where
  alone : ∀ pc, w.threads[e.1]? = some pc → pc.Closes w.shared →
    ∀ j q, e.1 ≠ j → w.threads[j]? = some q → q.midPacket = false
  front : ∀ g bytes, w.threads[e.1]? = some (.packet g bytes) →
    w.shared.header.refuses w.shared.maxPacketLen bytes = true →
    w.shared.recvQ.peek w.shared.header.size = some bytes
  closing : ∀ pc, w.threads[e.1]? = some pc → pc.Closes w.shared →
    (∀ g bytes, pc = .packet g bytes →
      w.shared.header.refuses w.shared.maxPacketLen bytes = false) →
    Barren w'.shared ∨ Deserted w'
  receiving : ∀ pc, w.threads[e.1]? = some pc → pc.Receives e.2 → w.shared.violated = true →
    Barren w'.shared ∧ ∀ q ∈ w'.threads, q.Spent w'.shared

/-- A violation was found, and no packet is left to deliver. -/
structure Barred (w : World) : Prop where
  violated : w.shared.violated = true
  connect : w.shared.connect = false
  front : Barren w.shared ∨ Deserted w
  spent : ∀ pc ∈ w.threads, pc.Spent w.shared

/-- What is not in the middle of a packet is harmless. -/
theorem Pc.Spent.of_midPacket (h : pc.midPacket = false) (s : Recv) : pc.Spent s := by
  cases pc with
  | packet | callback | disconnect => cases h
  | _ => trivial

/-- **Where a handler has just closed the session**, nothing is left to
deliver. -/
theorem Barred.of_closes {e : ℕ × Event} (hst : Recv.step w e = some w') (hbars : Bars w e w')
    (hpc : w.threads[e.1]? = some pc) (hcloses : pc.Closes w.shared)
    (hv : w'.shared.violated = true) (hc : w'.shared.connect = false) : Barred w' := by
  obtain ⟨pc₁, pc', hpc₁, hnext, ht⟩ := Pool.step_eq_some hst
  obtain rfl := Option.some.inj (hpc.symm.trans hpc₁)
  have ha := next_action hnext
  obtain ⟨hpc', hrefused⟩ := ha.closes hcloses
  obtain ⟨hkey, hmax, -⟩ := ha.ring
  refine ⟨hv, hc, ?_, Pool.forall_threads_of_others ht (fun j q hj hq => ?_)
    (.of_midPacket hpc' _)⟩
  · by_cases href : ∃ g bytes, pc = .packet g bytes ∧
        w.shared.header.refuses w.shared.maxPacketLen bytes = true
    · obtain ⟨g, bytes, rfl, href⟩ := href
      have hbarren := Barren.of_refused (hbars.front g bytes hpc href) href
      exact .inl (hbarren.congr (hrefused g bytes rfl href) hkey hmax)
    · refine hbars.closing pc hpc hcloses fun g bytes heq => ?_
      rw [← Bool.not_eq_true]
      exact fun href' => href ⟨g, bytes, heq, href'⟩
  · exact .of_midPacket (hbars.alone pc hpc hcloses j q hj hq) _

/-- **What a violation bars stays barred**, and nothing is delivered. -/
theorem Barred.step {e : ℕ × Event} (h : Barred w) (hst : Recv.step w e = some w')
    (hbars : Bars w e w') : Barred w' ∧ w'.shared.calls = w.shared.calls := by
  obtain ⟨pc, pc', hpc, hnext, ht⟩ := Pool.step_eq_some hst
  have ha := next_action hnext
  have hmem := List.mem_of_getElem? hpc
  have hspent := h.spent pc hmem
  refine ⟨?_, ha.calls hspent⟩
  obtain ⟨hconnect, hviolated⟩ := ha.violated
  have hc := hconnect h.connect
  have hv : w'.shared.violated = true := by
    rcases hviolated with heq | ⟨-, hv, -⟩
    · exact heq.trans h.violated
    · exact hv
  by_cases hcloses : pc.Closes w.shared
  · exact .of_closes hst hbars hpc hcloses hv hc
  by_cases hrecv : pc.Receives e.2
  · obtain ⟨hbarren, hall⟩ := hbars.receiving pc hpc hrecv h.violated
    exact ⟨hv, hc, .inl hbarren, hall⟩
  obtain ⟨hkey, hmax, hring⟩ := ha.ring
  have hq : w'.shared.recvQ = w.shared.recvQ := by
    rcases hring with hq | hr | hcl | hsp
    · exact hq
    · exact absurd hr hrecv
    · exact absurd hcl hcloses
    · exact absurd hspent hsp
  refine ⟨hv, hc, ?_, Pool.forall_threads_of_others ht (fun j q hj hq' =>
    (h.spent q (List.mem_of_getElem? hq')).congr hq hkey hmax) ?_⟩
  · rcases h.front with hbarren | ⟨hleaves, hjobs⟩
    · exact .inl (hbarren.congr hq hkey hmax)
    · obtain ⟨hpc', hjobs'⟩ := ha.leaves (hleaves pc hmem) hjobs h.connect hrecv
      exact .inr ⟨Pool.forall_threads ht hleaves hpc', hjobs'⟩
  · exact (ha.spent hspent (h.front.imp_right fun hd => hd.1 pc hmem)).congr hq hkey hmax

/-- **After a violation no packet callback is made**, as long as what the
violation leaves in the ring, and what comes after it, is no packet. -/
theorem no_call_after_violation {staticKey : Byte} {maxPacketLen : ℕ} {isHandled : Bool} {n : ℕ}
    (h : Runs Recv.step Bars (World.initial staticKey maxPacketLen isHandled n) w)
    (hviolated : w.shared.violated = true) (h' : Runs Recv.step Bars w w') :
    w'.shared.calls = w.shared.calls := by
  have hbarred : w.shared.violated = true → Barred w := by
    refine h.invariant (I := fun v => v.shared.violated = true → Barred v) (fun hv => by cases hv)
      fun {v v' e} ih hst hbars hv' => ?_
    cases hv : v.shared.violated with
    | true => exact ((ih hv).step hst hbars).1
    | false =>
      obtain ⟨pc, pc', hpc, hnext, -⟩ := Pool.step_eq_some hst
      rcases (next_action hnext).violated.2 with heq | ⟨hcloses, -, hc⟩
      · rw [heq, hv] at hv'
        cases hv'
      · exact .of_closes hst hbars hpc hcloses hv' hc
  have hrun := h'.invariant (I := fun v => Barred v ∧ v.shared.calls = w.shared.calls)
    ⟨hbarred hviolated, rfl⟩ fun ih hst hbars => by
      obtain ⟨hb, hcalls⟩ := ih.1.step hst hbars
      exact ⟨hb, hcalls.trans ih.2⟩
  exact hrun.2

/-- A step of a thread that is not in the middle of a packet, before any
violation. -/
theorem Bars.of_quiet {e : ℕ × Event}
    (hquiet : (w.threads[e.1]?.all fun pc => !pc.midPacket) = true)
    (hv : w.shared.violated = false) : Bars w e w' := by
  have hpc : ∀ pc, w.threads[e.1]? = some pc → pc.midPacket = false := by
    intro pc hpc
    simpa [hpc] using hquiet
  have hcloses : ∀ pc, w.threads[e.1]? = some pc → ¬ pc.Closes w.shared := by
    intro pc hpc' hcl
    have := hpc pc hpc'
    cases pc with
    | packet | disconnect => cases this
    | _ => exact hcl
  refine ⟨fun pc h hcl => absurd hcl (hcloses pc h), fun g bytes h => ?_,
    fun pc h hcl => absurd hcl (hcloses pc h), fun _ _ _ hv' => ?_⟩
  · cases hpc _ h
  · rw [hv] at hv'
    cases hv'

/-- A wrong packet code: the session is closed, and the worker leaves. -/
theorem no_call_after_violation_code : ∃ w w',
    exec Recv.step (World.initial 7 100 false 1)
        (receive [0, 0, 0, 0, 0] ++ [(1, .callback .done)]) = some w ∧
      w.shared.violated = true ∧ Recv.step w (1, .go) = some w' ∧
      w'.shared.calls = w.shared.calls := by
  let s : Recv := { (World.initial 7 100 false 1).shared with
    recvQ := ⟨writeBytes (fun _ => 0) 0 [0, 0, 0, 0, 0], 0, 5⟩ }
  let v : World := ⟨s, [.idle, .packet 0 [0, 0, 0, 0, 0]]⟩
  let w : World := ⟨s.violate, [.idle, .recvConnect]⟩
  let w' : World := ⟨s.violate, [.idle, .idle]⟩
  have hread : exec Recv.step (World.initial 7 100 false 1) (receive [0, 0, 0, 0, 0]) = some v :=
    rfl
  have hclose : Recv.step v (1, .callback .done) = some w := rfl
  have hleave : Recv.step w (1, .go) = some w' := rfl
  have hquiet : Runs Recv.step (fun w e _ => (w.threads[e.1]?.all fun pc => !pc.midPacket) = true ∧
      w.shared.violated = false) (World.initial 7 100 false 1) v :=
    runs_of_exec hread rfl
  have hbars : Bars v (1, .callback .done) w := by
    refine ⟨fun _ _ _ j q hj hq => ?_, fun g bytes h _ => ?_, fun pc h _ href => ?_,
      fun _ _ _ hv => by cases hv⟩
    · obtain rfl : j = 0 := by
        have := (List.getElem?_eq_some_iff.1 hq).1
        simp only [v, List.length_cons, List.length_nil] at this
        omega
      obtain rfl := Option.some.inj hq
      rfl
    · cases h
      change CRingBuffer.peek ⟨writeBytes (fun _ => 0) 0 [0, 0, 0, 0, 0], 0, 5⟩ 5 = _
      decide
    · cases h
      cases href _ _ rfl
  have hlast : Bars w (1, .go) w' := by
    have hpc : ∀ pc, w.threads[1]? = some pc → pc = .recvConnect := fun pc h =>
      (Option.some.inj h).symm
    refine ⟨fun pc h hcl => ?_, fun g bytes h => ?_, fun pc h hcl => ?_, fun pc h hr => ?_⟩
    · exact (hpc pc h ▸ hcl : Pc.Closes _ .recvConnect).elim
    · cases hpc _ h
    · exact (hpc pc h ▸ hcl : Pc.Closes _ .recvConnect).elim
    · exact (hpc pc h ▸ hr : Pc.Receives .recvConnect .go).elim
  exact ⟨w, w', exec_append hread (exec_cons_iff.2 ⟨w, hclose, rfl⟩), rfl, hleave,
    no_call_after_violation
      (.tail (hquiet.mono fun hq => .of_quiet hq.1 hq.2) hclose hbars) rfl
      (.tail .refl hleave hlast)⟩

/-- **A callback after a violation.** The payload of a packet is the bytes
of another packet; the packet callback asks for more than the payload and
throws before it has read any of it. The session is closed, and the handler
goes on with the payload as its next packet. -/
theorem call_after_violation : ∃ w w',
    exec Recv.step (World.initial 0 2048 false 1) (receive [3, 0, 1, 0, 0x55] ++
        [(1, .callback (.read 4 fun _ => .done)), (1, .go), (1, .go)]) = some w ∧
      w.shared.violated = true ∧ w.shared.calls = 1 ∧
      exec Recv.step w [(1, .go), (1, .go), (1, .go), (1, .callback .done)] = some w' ∧
      w'.shared.calls = 2 := by
  have hthrow : (exec Recv.step (World.initial 0 2048 false 1) (receive [3, 0, 1, 0, 0x55] ++
      [(1, .callback (.read 4 fun _ => .done)), (1, .go), (1, .go)])).bind (fun w =>
        (exec Recv.step w [(1, .go), (1, .go), (1, .go), (1, .callback .done)]).map fun w' =>
          (w.shared.violated, w.shared.calls, w'.shared.calls)) = some (true, 1, 2) := by
    rfl
  obtain ⟨w, hw, hmap⟩ := Option.bind_eq_some_iff.1 hthrow
  obtain ⟨w', hw', heq⟩ := Option.map_eq_some_iff.1 hmap
  simp only [Prod.mk.injEq] at heq
  obtain ⟨hviolated, hcalls, hcalls'⟩ := heq
  exact ⟨w, w', hw, hviolated, hcalls, hw', hcalls'⟩

end Recv

end NetLib
