import NetLib.Recv.Hands
/-!
# Packets left in the ring

A worker that finds a Recv job of the session on its way leaves the bytes to
it, and a handler that finds the session in another group leaves them to
that group. The first is a handshake over `_isHandled`, which the group
clears before it looks at the ring; nothing answers the second.
-/

namespace NetLib

namespace Recv

variable {s s' : Recv} {w w' : World} {pc pc' : Pc}

/-- A complete packet is at the front: right code, right length, and all of
it is there. -/
def Complete (s : Recv) : Prop :=
  ∃ bytes, s.recvQ.peek s.header.size = some bytes ∧
    s.header.refuses s.maxPacketLen bytes = false ∧
    s.header.len bytes + s.header.size ≤ s.recvQ.size

/-- Is the thread about to look at the ring for the session's group? A
handler that is past its test of the group looks for any group. -/
def Pc.Looks (s : Recv) : Pc → Prop
  | .moveRear _ | .execGroup | .execHandled | .setHandled | .onRecv => True
  | .enqueue g | .findSession g | .clearHandled g | .loop g => g = s.groupId
  | .size _ | .peek _ | .callback _ _ _ | .disconnect _ => True
  | .packet _ bytes => s.recvQ.peek s.header.size = some bytes
  | _ => False

/-- Does the thread carry the Recv job that `_isHandled` announces? -/
def Pc.Carries (s : Recv) : Pc → Prop
  | .onRecv => True
  | .enqueue g | .findSession g | .clearHandled g => g = s.groupId
  | _ => False

/-- Somebody is about to look at the ring. -/
def Watched (w : World) : Prop :=
  0 < w.shared.jobs w.shared.groupId ∨ ∃ pc ∈ w.threads, pc.Looks w.shared

/-- The Recv job that `_isHandled` announces is on its way. -/
def Announced (w : World) : Prop :=
  0 < w.shared.jobs w.shared.groupId ∨ ∃ pc ∈ w.threads, pc.Carries w.shared

/-- The flag of a session in a group announces a job. -/
def FlagOk (w : World) : Prop :=
  w.shared.connect = true → w.shared.isHandled = true → w.shared.groupId ≠ BaseGroupID →
    Announced w

/-- A complete packet is watched. -/
def FrontOk (w : World) : Prop :=
  w.shared.connect = true → Complete w.shared → Watched w

theorem Pc.Carries.looks (h : pc.Carries s) : pc.Looks s := by
  cases pc with
  | onRecv => trivial
  | enqueue | findSession | clearHandled => exact h
  | _ => exact h.elim

theorem Announced.watched (h : Announced w) : Watched w :=
  h.imp_right fun ⟨pc, hpc, hc⟩ => ⟨pc, hpc, hc.looks⟩

theorem Complete.size_le (h : Complete s) : s.header.size ≤ s.recvQ.size := by
  obtain ⟨bytes, -, -, hle⟩ := h
  exact (Nat.le_add_left _ _).trans hle

theorem Pc.Carries.congr (h : pc.Carries s) (hg : s'.groupId = s.groupId) : pc.Carries s' := by
  cases pc with
  | onRecv => trivial
  | enqueue | findSession | clearHandled => exact h.trans hg.symm
  | _ => exact h.elim

theorem Pc.Looks.congr (h : pc.Looks s) (hg : s'.groupId = s.groupId) (hq : s'.recvQ = s.recvQ)
    (hkey : s'.staticKey = s.staticKey) : pc.Looks s' := by
  have hheader : s'.header = s.header := by rw [header, header, hkey]
  cases pc with
  | enqueue | findSession | clearHandled | loop => exact h.trans hg.symm
  | packet g bytes =>
    change s'.recvQ.peek s'.header.size = some bytes
    rwa [hq, hheader]
  | idle | recvConnect | recvDirect | recvFree | recvSecond | wsaRecv | handleJob => exact h.elim
  | _ => trivial

/-- The queue of the session's group before and after a job of another one. -/
theorem jobs_of_ne {g : GroupID} {n : ℕ} (hg : g ≠ s.groupId) :
    Function.update s.jobs g n s.groupId = s.jobs s.groupId :=
  Function.update_of_ne (Ne.symm hg) _ _

/-- **What a step does to the flag**: whoever sets it queues a job, and
whoever takes that job from the queue clears it. If neither the thread nor
the queue has the job, another thread does. -/
theorem Action.carries {e : Event} (h : Action s pc e s' pc') (hmove : s'.groupId = s.groupId)
    (hc : s'.connect = true) (hh : s'.isHandled = true) :
    (0 < s'.jobs s'.groupId ∨ pc'.Carries s') ∨
      s.isHandled = true ∧ s.jobs s.groupId = 0 ∧ ¬ pc.Carries s := by
  have hquiet (hflag : s'.isHandled = s.isHandled)
      (hjobs : s'.jobs s.groupId = s.jobs s.groupId) (hpc : ¬ pc.Carries s) :
      (0 < s'.jobs s'.groupId ∨ pc'.Carries s') ∨
        s.isHandled = true ∧ s.jobs s.groupId = 0 ∧ ¬ pc.Carries s := by
    rw [hmove, hjobs]
    rcases Nat.eq_zero_or_pos (s.jobs s.groupId) with hz | hpos
    · exact .inr ⟨hflag ▸ hh, hz, hpc⟩
    · exact .inl (.inl hpos)
  cases h
  case setHandled => exact .inl (.inr trivial)
  case onRecv => exact .inl (.inr rfl)
  case enqueue g =>
    by_cases hg : g = s.groupId
    · subst hg
      exact .inl (.inl (by simp))
    · exact hquiet rfl (jobs_of_ne hg) hg
  case job g hjob =>
    by_cases hg : g = s.groupId
    · exact .inl (.inr hg)
    · exact hquiet rfl (jobs_of_ne hg) id
  case found g =>
    by_cases hg : g = s.groupId
    · exact .inl (.inr hg)
    · exact hquiet rfl rfl hg
  case gone hclosed => simp [hclosed] at hc
  case clearHandled => cases hh
  case close | refused | invalid | disconnect => cases hc
  all_goals exact hquiet rfl rfl id

/-- The step leaves the ring and the session as they are. -/
structure Unmoved (s s' : Recv) : Prop where
  recvQ : s'.recvQ = s.recvQ
  staticKey : s'.staticKey = s.staticKey
  maxPacketLen : s'.maxPacketLen = s.maxPacketLen
  connect : s'.connect = s.connect
  groupId : s'.groupId = s.groupId

theorem Complete.of_unmoved (h : Complete s') (hu : Unmoved s s') : Complete s := by
  have hheader : s'.header = s.header := by rw [header, header, hu.staticKey]
  rwa [Complete, hu.recvQ, hheader, hu.maxPacketLen] at h

/-- **Who looks at a complete packet** after a step: the thread itself, or
whoever gets the job it has queued. The exceptions are a worker that leaves
the packet to the job behind the flag, and a packet callback that returns
after the session has left its group. -/
theorem Action.looks {e : Event} (h : Action s pc e s' pc') (hmove : s'.groupId = s.groupId)
    (hc : s'.connect = true) (hfull : Complete s') :
    (0 < s'.jobs s'.groupId ∨ pc'.Looks s') ∨
      (Unmoved s s' ∧ s.jobs s.groupId = 0 ∧ ¬ pc.Looks s) ∨
      (s' = s ∧ s.isHandled = true ∧ s.groupId ≠ BaseGroupID) ∨
      ∃ g left, pc = .callback g .done left ∧ s.groupId ≠ g := by
  have hquiet (hu : Unmoved s s') (hjobs : s'.jobs s.groupId = s.jobs s.groupId)
      (hpc : ¬ pc.Looks s) :
      (0 < s'.jobs s'.groupId ∨ pc'.Looks s') ∨
        (Unmoved s s' ∧ s.jobs s.groupId = 0 ∧ ¬ pc.Looks s) ∨
        (s' = s ∧ s.isHandled = true ∧ s.groupId ≠ BaseGroupID) ∨
        ∃ g left, pc = .callback g .done left ∧ s.groupId ≠ g := by
    rw [hmove, hjobs]
    rcases Nat.eq_zero_or_pos (s.jobs s.groupId) with hz | hpos
    · exact .inr (.inl ⟨hu, hz, hpc⟩)
    · exact .inl (.inl hpos)
  cases h
  case complete | moveRear | inGroup | unhandled | setHandled | hasHeader | deliver | threw
      | read | ownGroup => exact .inl (.inr trivial)
  case inBase hg => exact .inl (.inr hg.symm)
  case handled hh =>
    by_cases hg : s.groupId = BaseGroupID
    · exact .inl (.inr hg.symm)
    · exact .inr (.inr (.inl ⟨rfl, hh, hg⟩))
  case onRecv => exact .inl (.inr rfl)
  case enqueue g =>
    by_cases hg : g = s.groupId
    · subst hg
      exact .inl (.inl (by simp))
    · exact hquiet ⟨rfl, rfl, rfl, rfl, rfl⟩ (jobs_of_ne hg) hg
  case otherGroup hg => exact hquiet ⟨rfl, rfl, rfl, rfl, rfl⟩ rfl (Ne.symm hg)
  case noHeader hsize =>
    have := hfull.size_le
    omega
  case peek hpeek => exact .inl (.inr hpeek)
  case short href hsize =>
    refine hquiet ⟨rfl, rfl, rfl, rfl, rfl⟩ rfl fun hpeek => ?_
    -- the header it has read is the one of the complete packet
    obtain ⟨bytes', hpeek', -, hle⟩ := hfull
    obtain rfl := Option.some.inj (hpeek.symm.trans hpeek')
    omega
  case returned g left =>
    by_cases hg : g = s.groupId
    · exact .inl (.inr hg)
    · exact .inr (.inr (.inr ⟨g, left, rfl, Ne.symm hg⟩))
  case job g hjob =>
    by_cases hg : g = s.groupId
    · exact .inl (.inr hg)
    · exact hquiet ⟨rfl, rfl, rfl, rfl, rfl⟩ (jobs_of_ne hg) id
  case found g =>
    by_cases hg : g = s.groupId
    · exact .inl (.inr hg)
    · exact hquiet ⟨rfl, rfl, rfl, rfl, rfl⟩ rfl hg
  case gone hclosed => simp [hclosed] at hc
  case clearHandled g =>
    by_cases hg : g = s.groupId
    · exact .inl (.inr hg)
    · exact hquiet ⟨rfl, rfl, rfl, rfl, rfl⟩ rfl hg
  case close | refused | invalid | disconnect => cases hc
  case move => exact hquiet ⟨rfl, rfl, rfl, rfl, hmove⟩ rfl id
  all_goals exact hquiet ⟨rfl, rfl, rfl, rfl, rfl⟩ rfl id

/-- A closed session is not opened again. -/
theorem Action.connect {e : Event} (h : Action s pc e s' pc') (hc : s'.connect = true) :
    s.connect = true := by
  cases h
  case close | refused | invalid | disconnect => cases hc
  all_goals exact hc

/-! ## Runs -/

/-- A session is moved to a group with its flag set only if the job behind
the flag is in that group. When it is moved, and when a packet callback
returns to a group it has left, a complete packet at the front of the ring
is watched by somebody else. -/
structure Heeds (w : World) (e : ℕ × Event) (w' : World) : Prop where
  move : ∀ dst, w.threads[e.1]? = some .idle → e.2 = .move dst → FlagOk w' ∧ FrontOk w'
  leave : ∀ g left, w.threads[e.1]? = some (.callback g .done left) → w.shared.groupId ≠ g →
    FrontOk w'

theorem FlagOk.step {e : ℕ × Event} (h : FlagOk w) (hst : Recv.step w e = some w')
    (hmove : w'.shared.groupId = w.shared.groupId) : FlagOk w' := by
  obtain ⟨pc, pc', hpc, hnext, ht⟩ := Pool.step_eq_some hst
  have ha := next_action hnext
  intro hc hh hg
  rcases ha.carries hmove hc hh with (hjobs | hcarries) | ⟨hh', hz, hnot⟩
  · exact .inl hjobs
  · exact .inr ⟨pc', Pool.mem_threads hpc ht, hcarries⟩
  · rcases h (ha.connect hc) hh' (hmove ▸ hg) with hpos | hex
    · exact absurd hz hpos.ne'
    · rcases Pool.exists_threads hpc ht hex with hp | ⟨q, hq, hqc⟩
      · exact absurd hp hnot
      · exact .inr ⟨q, hq, hqc.congr hmove⟩

theorem FrontOk.step {e : ℕ × Event} (hflag : FlagOk w) (h : FrontOk w)
    (hst : Recv.step w e = some w') (hmove : w'.shared.groupId = w.shared.groupId)
    (hleave : ∀ g left, w.threads[e.1]? = some (.callback g .done left) → w.shared.groupId ≠ g →
      FrontOk w') : FrontOk w' := by
  obtain ⟨pc, pc', hpc, hnext, ht⟩ := Pool.step_eq_some hst
  have ha := next_action hnext
  intro hc hfull
  rcases ha.looks hmove hc hfull with (hjobs | hlooks) | ⟨hu, hz, hnot⟩ | ⟨hsame, hh, hg⟩ |
    ⟨g, left, rfl, hg⟩
  · exact .inl hjobs
  · exact .inr ⟨pc', Pool.mem_threads hpc ht, hlooks⟩
  · rcases h (ha.connect hc) (hfull.of_unmoved hu) with hpos | hex
    · exact absurd hz hpos.ne'
    · rcases Pool.exists_threads hpc ht hex with hp | ⟨q, hq, hql⟩
      · exact absurd hp hnot
      · exact .inr ⟨q, hq, hql.congr hu.groupId hu.recvQ hu.staticKey⟩
  · -- the worker leaves the packet to the job behind the flag
    exact (hflag.step hst hmove hc (by rw [hsame]; exact hh) (by rw [hmove]; exact hg)).watched
  · exact hleave g left hpc hg hc hfull

theorem Heeds.step {e : ℕ × Event} (hflag : FlagOk w) (hfront : FrontOk w)
    (hst : Recv.step w e = some w') (hheeds : Heeds w e w') : FlagOk w' ∧ FrontOk w' := by
  obtain ⟨pc, pc', hpc, hnext, -⟩ := Pool.step_eq_some hst
  rcases (next_action hnext).groupId with hsame | ⟨rfl, hmove⟩
  · exact ⟨hflag.step hst hsame, FrontOk.step hflag hfront hst hsame hheeds.leave⟩
  · exact hheeds.move _ hpc hmove

/-- Nothing goes on in the session: no worker in `Execute`, no handler, and
no Recv job in any group. -/
def Quiescent (w : World) : Prop :=
  (∀ pc ∈ w.threads, pc = .idle ∨ ∃ g, pc = .handleJob g) ∧ ∀ g, w.shared.jobs g = 0

/-- The ring is empty at first. -/
theorem FrontOk.initial (staticKey : Byte) (maxPacketLen : ℕ) (isHandled : Bool) (n : ℕ) :
    FrontOk (World.initial staticKey maxPacketLen isHandled n) := by
  intro _ hfull
  have hempty : (⟨fun _ => 0, 0, 0⟩ : CRingBuffer).size = 0 := by decide
  have hle := hfull.size_le
  have hpos := header_size_pos (World.initial staticKey maxPacketLen isHandled n).shared.header
  change _ ≤ (⟨fun _ => 0, 0, 0⟩ : CRingBuffer).size at hle
  omega

theorem Quiescent.of_idle {n : ℕ} (h : w.threads = List.replicate n .idle)
    (hjobs : ∀ g, w.shared.jobs g = 0) : Quiescent w :=
  ⟨fun _ hpc => .inl (List.eq_of_mem_replicate (h ▸ hpc)), hjobs⟩

/-- **No complete packet is left in the ring** of a session that is open and
at rest, where moves leave none behind. -/
theorem nothing_stranded {staticKey : Byte} {maxPacketLen : ℕ} {isHandled : Bool} {n : ℕ}
    (h : Runs Recv.step Heeds (World.initial staticKey maxPacketLen isHandled n) w)
    (hconnect : w.shared.connect = true) (hrest : Quiescent w) : ¬ Complete w.shared := by
  have hok := h.invariant (I := fun w => FlagOk w ∧ FrontOk w)
    ⟨fun _ _ hg => absurd rfl hg, .initial _ _ _ _⟩ fun ih hst hheeds =>
      hheeds.step ih.1 ih.2 hst
  intro hfull
  rcases hok.2 hconnect hfull with hpos | ⟨pc, hpc, hlooks⟩
  · exact absurd (hrest.2 _) hpos.ne'
  · rcases hrest.1 pc hpc with rfl | ⟨g, rfl⟩
    · exact hlooks
    · exact hlooks

/-- Does the thread stay in the session's group, and the session there? -/
def stays (w : World) (e : ℕ × Event) : Bool :=
  match w.threads[e.1]?, e.2 with
  | _, .move _ => false
  | some (.callback g _ _), _ => w.shared.groupId = g
  | _, _ => true

theorem Heeds.of_stays {e : ℕ × Event} (h : stays w e = true) : Heeds w e w' := by
  refine ⟨fun dst _ hmove => ?_, fun g left hpc hg => ?_⟩
  · simp [stays, hmove] at h
  · cases he : e.2 with
    | move dst => simp [stays, he] at h
    | _ =>
      simp only [stays, hpc, he, decide_eq_true_eq] at h
      exact absurd h hg

/-- A session may be moved while there is no header in its ring and no Recv
job announced. -/
theorem Heeds.of_little {e : ℕ × Event} (hpc : w.threads[e.1]? = some .idle)
    (hhandled : w'.shared.isHandled = false)
    (hlittle : w'.shared.recvQ.size < w'.shared.header.size) : Heeds w e w' := by
  refine ⟨fun dst _ _ => ⟨fun _ hh => ?_, fun _ hfull => ?_⟩, fun g left hc => ?_⟩
  · rw [hhandled] at hh
    cases hh
  · exact absurd hfull.size_le (not_le.2 hlittle)
  · cases hpc.symm.trans hc

/-- Does a session that is moved leave neither a header nor a Recv job? -/
def movesLittle (w : World) (e : ℕ × Event) (w' : World) : Bool :=
  match w.threads[e.1]? with
  | some .idle =>
    !w'.shared.isHandled && decide (w'.shared.recvQ.size < w'.shared.header.size)
  | _ => false

theorem Heeds.of_movesLittle {e : ℕ × Event} (h : movesLittle w e w' = true) : Heeds w e w' := by
  unfold movesLittle at h
  split at h
  · rename_i hpc
    rw [Bool.and_eq_true, Bool.not_eq_true', decide_eq_true_eq] at h
    exact .of_little hpc h.1 h.2
  · cases h

/-- In group 1 a packet and half a header arrive. -/
def halfInGroup : List (ℕ × Event) :=
  List.replicate 4 (0, .go) ++ (0, .move 1) :: (1, .complete [1, 0, 0x55, 1]) ::
    List.replicate 10 (1, .go)

/-- The group delivers the packet. -/
def groupDelivers : List (ℕ × Event) :=
  (2, .update 1) :: List.replicate 6 (2, .go) ++
    (2, .callback (.read 1 fun _ => .done)) :: List.replicate 5 (2, .go)

/-- The session is moved back, and the rest arrives, with half a header behind
it. -/
def restInBase : List (ℕ × Event) :=
  (0, .move 0) :: (1, .complete [0, 0x66, 5]) :: List.replicate 5 (1, .go) ++
    (1, .callback (.read 1 fun _ => .done)) :: List.replicate 9 (1, .go)

theorem nothing_stranded_moved : ∃ w,
    exec Recv.step (World.initial 0 100 false 2)
        (halfInGroup ++ groupDelivers ++ restInBase) = some w ∧
      w.shared.calls = 2 ∧ w.threads = [.idle, .idle, .idle] ∧ w.shared.recvQ.size = 1 ∧
      ¬ Complete w.shared := by
  have hmap : (exec Recv.step (World.initial 0 100 false 2)
      (halfInGroup ++ groupDelivers ++ restInBase)).map (fun w =>
        (w.shared.calls, w.shared.connect, w.shared.jobs, w.threads, w.shared.recvQ.size)) =
      some (2, true, Function.update (Function.update (fun _ => 0) 1 1) 1 0,
        List.replicate 3 .idle, 1) := by
    rfl
  obtain ⟨w, hw, heq⟩ := Option.map_eq_some_iff.1 hmap
  simp only [Prod.mk.injEq] at heq
  obtain ⟨hcalls, hconnect, hjobs, hthreads, hsize⟩ := heq
  have hrun : Runs Recv.step (fun w e w' => (stays w e || movesLittle w e w') = true)
      (World.initial 0 100 false 2) w :=
    runs_of_exec hw (by decide +kernel)
  have hheeds : Runs Recv.step Heeds (World.initial 0 100 false 2) w := hrun.mono fun h =>
    (Bool.or_eq_true_iff.1 h).elim .of_stays .of_movesLittle
  refine ⟨w, hw, hcalls, hthreads, hsize,
    nothing_stranded hheeds hconnect (.of_idle hthreads fun g => ?_)⟩
  rw [hjobs, Function.update_idem]
  exact congrFun (Function.update_eq_self 1 fun _ => 0) g

/-- **A packet left in the ring.** A packet without a payload is received in
the base group, and the session is moved to group 1 before `RecvHandler`
looks at the group. The worker posts the next receive and is done. -/
theorem packet_stranded : ∃ w,
    exec Recv.step (World.initial 7 100 false 1)
        (List.replicate 4 (0, .go) ++ [(1, .complete [0x77, 0, 0, 0, 0x09]), (1, .go), (1, .go),
          (0, .move 1)] ++ List.replicate 5 (1, .go)) = some w ∧
      w.shared.connect = true ∧ Quiescent w ∧ Complete w.shared := by
  have hmap : (exec Recv.step (World.initial 7 100 false 1)
      (List.replicate 4 (0, .go) ++ [(1, .complete [0x77, 0, 0, 0, 0x09]), (1, .go), (1, .go),
        (0, .move 1)] ++ List.replicate 5 (1, .go))).map (fun w =>
          (w.shared.connect, w.shared.jobs, w.threads, w.shared.staticKey, w.shared.maxPacketLen,
            w.shared.recvQ.size, w.shared.recvQ.peek 5)) =
      some (true, fun _ => 0, List.replicate 2 .idle, 7, 100, 5, some [0x77, 0, 0, 0, 0x09]) := by
    rfl
  obtain ⟨w, hw, heq⟩ := Option.map_eq_some_iff.1 hmap
  simp only [Prod.mk.injEq] at heq
  obtain ⟨hconnect, hjobs, hthreads, hkey, hmax, hsize, hpeek⟩ := heq
  have hheader : w.shared.header = .NetHeader := by
    rw [header, hkey]
    rfl
  refine ⟨w, hw, hconnect, .of_idle hthreads fun g => by rw [hjobs],
    [0x77, 0, 0, 0, 0x09], ?_, ?_, ?_⟩
  · rw [hheader]
    exact hpeek
  · rw [hheader, hmax]
    rfl
  · rw [hheader, hsize]
    decide

end Recv

end NetLib
