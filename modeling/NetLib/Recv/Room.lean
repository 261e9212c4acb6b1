import NetLib.Recv.Hands
/-!
# The room a receive is posted with

`RecvNotIncrease` posts whatever is free in the ring, which holds 8191
bytes. There is room unless a receive filled the ring and the handler left
it full: the session was in a group, or the packet at the front is longer
than the ring.
-/

namespace NetLib

namespace Recv

open CRingBuffer

variable {s s' : Recv} {w w' : World} {pc pc' : Pc} {e : ℕ × Event}

/-- The packet at the front is refused or complete. -/
def Settles (s : Recv) : Prop :=
  ∃ bytes, s.recvQ.peek s.header.size = some bytes ∧
    (s.header.refuses s.maxPacketLen bytes = true ∨
      s.header.len bytes + s.header.size ≤ s.recvQ.size)

/-- If the ring is full and the session is not closed, then `P`. -/
def Tight (s : Recv) (P : Prop) : Prop := s.recvQ.freeSize = 0 → s.connect = true → P

theorem Tight.of_closed {P : Prop} (h : s.connect = false) : Tight s P := fun _ hc => by
  rw [h] at hc
  cases hc

/-- The bytes a receive can take. -/
def total (bufs : List WSABUF) : ℕ := (bufs.map WSABUF.len).sum

/-- What is sure of the ring where the thread is. -/
def Pc.Room (s : Recv) : Pc → Prop
  | .moveRear n => 1 ≤ n ∧ n ≤ s.recvQ.freeSize
  -- a full ring is about to be read from
  | .execGroup => Tight s (s.groupId = BaseGroupID ∧ Settles s)
  | .loop g => g = BaseGroupID → Tight s (s.groupId = BaseGroupID ∧ Settles s)
  | .size g | .peek g => g = BaseGroupID → Tight s (Settles s)
  | .packet g bytes => g = BaseGroupID → Tight s
      (s.header.refuses s.maxPacketLen bytes = true ∨ s.header.len bytes + s.header.size ≤ 8191)
  -- or has been
  | .callback g _ _ | .disconnect g => g = BaseGroupID → 0 < s.recvQ.freeSize
  | .execHandled | .setHandled | .onRecv | .enqueue _ | .recvConnect => Tight s False
  | .recvDirect => 0 < s.recvQ.freeSize
  | .recvFree direct => 0 < s.recvQ.freeSize ∧ direct ≤ s.recvQ.freeSize
  | .recvSecond direct => direct < s.recvQ.freeSize
  | .wsaRecv bufs => 1 ≤ total bufs ∧ total bufs ≤ s.recvQ.freeSize
  | .handleJob g | .findSession g | .clearHandled g => g ≠ BaseGroupID
  | .idle => True

/-- A thread without the receive need not know. -/
theorem Pc.Room.of_works (h : pc.works = 0) (s : Recv) : pc.Room s := by
  have hne {g : GroupID} (h : (if g = BaseGroupID then 1 else 0) = 0) (hg : g = BaseGroupID) :
      False := by
    rw [if_pos hg] at h
    cases h
  cases pc with
  | loop g | size g | peek g | packet g _ | callback g _ _ | disconnect g =>
    exact fun hg => (hne h hg).elim
  | handleJob g | findSession g | clearHandled g => exact fun hg => hne h hg
  | idle => trivial
  | _ => cases h

/-- What other threads do to the ring is no harm, as long as a full ring
that is not closed stays as it is. -/
theorem Pc.Room.quiet (h : pc.Room s) (hfree : s.recvQ.freeSize ≤ s'.recvQ.freeSize)
    (hkey : s'.staticKey = s.staticKey) (hmax : s'.maxPacketLen = s.maxPacketLen)
    (hsame : Tight s' (s.connect = true ∧ s'.recvQ = s.recvQ))
    (hgroup : pc = .execGroup ∨ pc = .loop BaseGroupID →
      Tight s' (s.groupId = BaseGroupID → s'.groupId = BaseGroupID)) : pc.Room s' := by
  have hheader : s'.header = s.header := by rw [header, header, hkey]
  have hfull : Tight s' (s.recvQ.freeSize = 0 ∧ s.connect = true) := fun hz hc =>
    ⟨Nat.eq_zero_of_le_zero (hfree.trans hz.le), (hsame hz hc).1⟩
  have hsettles : Tight s' (Settles s → Settles s') := fun hz hc hset => by
    obtain ⟨-, hq⟩ := hsame hz hc
    rwa [Settles, hq, hheader, hmax]
  have htight {P : Prop} (ht : Tight s P) : Tight s' P := fun hz hc =>
    ht (hfull hz hc).1 (hfull hz hc).2
  cases pc with
  | moveRear n => exact ⟨h.1, h.2.trans hfree⟩
  | execGroup =>
    intro hz hc
    obtain ⟨hg, hset⟩ := htight h hz hc
    exact ⟨hgroup (.inl rfl) hz hc hg, hsettles hz hc hset⟩
  | loop g =>
    rintro rfl hz hc
    obtain ⟨hg, hset⟩ := htight (h rfl) hz hc
    exact ⟨hgroup (.inr rfl) hz hc hg, hsettles hz hc hset⟩
  | size g | peek g => exact fun hg hz hc => hsettles hz hc (htight (h hg) hz hc)
  | packet g bytes =>
    rw [Pc.Room, hheader, hmax]
    exact fun hg => htight (h hg)
  | callback g _ _ | disconnect g => exact fun hg => (h hg).trans_le hfree
  | execHandled | setHandled | onRecv | enqueue g | recvConnect => exact htight h
  | recvDirect => exact Nat.lt_of_lt_of_le h hfree
  | recvFree direct => exact ⟨h.1.trans_le hfree, h.2.trans hfree⟩
  | recvSecond direct => exact Nat.lt_of_lt_of_le h hfree
  | wsaRecv bufs => exact ⟨h.1, h.2.trans hfree⟩
  | handleJob g | findSession g | clearHandled g => exact h
  | idle => trivial

/-- An action of a thread without the receive leaves a full ring as it is,
or closes the session. -/
theorem Action.quiet {e : Event} (h : Action s pc e s' pc') (hw : pc.works = 0)
    (hw' : pc'.works = 0) :
    s.recvQ.freeSize ≤ s'.recvQ.freeSize ∧ s'.staticKey = s.staticKey ∧
      s'.maxPacketLen = s.maxPacketLen ∧ Tight s' (s.connect = true ∧ s'.recvQ = s.recvQ) ∧
      (s'.groupId = s.groupId ∨ pc = .idle ∧ e = .move s'.groupId) := by
  cases h
  case complete => cases hw'
  case close => exact ⟨le_rfl, rfl, rfl, .of_closed rfl, .inl rfl⟩
  case move dst => exact ⟨le_rfl, rfl, rfl, fun _ hc => ⟨hc, rfl⟩, .inr ⟨rfl, rfl⟩⟩
  case refused | disconnect => exact ⟨le_rfl, rfl, rfl, .of_closed rfl, .inl rfl⟩
  case invalid recvQ _ _ _ hdecode _ =>
    have := freeSize_add_size s.recvQ
    have := freeSize_add_size recvQ
    have := decode_size hdecode
    refine ⟨?_, rfl, rfl, .of_closed rfl, .inl rfl⟩
    change s.recvQ.freeSize ≤ recvQ.freeSize
    omega
  case deliver plain recvQ href hsize hplain _ hdequeue =>
    have hleft := size_of_dequeue hdequeue
    have := freeSize_add_size s.recvQ
    have := freeSize_add_size recvQ
    have := header_size_pos s.header
    refine ⟨by dsimp only; omega, rfl, rfl, fun hz _ => ?_, .inl rfl⟩
    dsimp only at hz
    omega
  case read recvQ _ _ hdequeue =>
    have hleft := size_of_dequeue hdequeue
    have := freeSize_add_size s.recvQ
    have := freeSize_add_size recvQ
    refine ⟨by dsimp only; omega, rfl, rfl, fun hz hc => ⟨hc, ?_⟩, .inl rfl⟩
    dsimp only at hz
    exact eq_of_dequeue hdequeue (show s.recvQ.size ≤ recvQ.size by omega)
  all_goals first | exact ⟨le_rfl, rfl, rfl, fun _ hc => ⟨hc, rfl⟩, .inl rfl⟩ | cases hw

/-- **What one action leaves of the room**, where the condition holds of a
receive that fills the ring. -/
theorem Action.room {e : Event} (h : Action s pc e s' pc') (hroom : pc.Room s)
    (hone : pc.works = 1 → s.posted = none)
    (hposted : ∀ bufs, s.posted = some bufs → total bufs ≤ s.recvQ.freeSize)
    (hfits : ∀ n, pc = .moveRear n → Tight s' (s'.groupId = BaseGroupID ∧ Settles s')) :
    pc'.Room s' ∧ ∀ bufs, s'.posted = some bufs → total bufs ≤ s'.recvQ.freeSize := by
  have hnone {s' : Recv} (hw : pc.works = 1) (hp : s'.posted = s.posted) :
      ∀ bufs, s'.posted = some bufs → total bufs ≤ s'.recvQ.freeSize := fun bufs hbufs => by
    rw [hp, hone hw] at hbufs
    cases hbufs
  have hmore {s' : Recv} (hp : s'.posted = s.posted) (hle : s.recvQ.freeSize ≤ s'.recvQ.freeSize) :
      ∀ bufs, s'.posted = some bufs → total bufs ≤ s'.recvQ.freeSize := fun bufs hbufs =>
    (hposted bufs (hp ▸ hbufs)).trans hle
  have hafter {s' : Recv} {g : GroupID} (ht : g = BaseGroupID → Tight s' False) :
      (after g).Room s' := by
    unfold after
    split
    · exact ht ‹_›
    · exact ‹¬_›
  have hfree := freeSize_add_size s.recvQ
  have hhead := header_size_pos s.header
  cases h
  case complete data bufs buffer hbufs hfit =>
    exact ⟨⟨hfit.1, hfit.2.trans (hposted bufs hbufs)⟩, fun _ h => by cases h⟩
  case ended => exact ⟨trivial, fun _ h => by cases h⟩
  case close | move => exact ⟨trivial, hposted⟩
  case update hg _ => exact ⟨hg, hposted⟩
  case moveRear n => exact ⟨hfits n rfl, hnone rfl rfl⟩
  case inGroup hg => exact ⟨fun hz hc => hg (hroom hz hc).1, hposted⟩
  case inBase => exact ⟨fun _ => hroom, hposted⟩
  case handled => exact ⟨fun _ hz hc => (hroom hz hc).elim, hposted⟩
  case unhandled | setHandled | onRecv | enqueue => exact ⟨hroom, hposted⟩
  case connected hc => exact ⟨Nat.pos_of_ne_zero fun hz => hroom hz hc, hposted⟩
  case released => exact ⟨trivial, hposted⟩
  case recvDirect direct hd =>
    obtain rfl := Option.some.inj (hd.symm.trans (directEnqueueSize_eq s.recvQ))
    exact ⟨⟨hroom, Nat.min_le_left _ _⟩, hposted⟩
  case recvTwo hd => exact ⟨hd, hposted⟩
  case recvOne direct hd =>
    obtain ⟨hpos, hle⟩ := hroom
    refine ⟨?_, hposted⟩
    simp only [Pc.Room, total, List.map_cons, List.map_nil, List.sum_cons, List.sum_nil]
    omega
  case recvSecond direct =>
    change direct < s.recvQ.freeSize at hroom
    refine ⟨?_, hposted⟩
    simp only [Pc.Room, total, List.map_cons, List.map_nil, List.sum_cons, List.sum_nil]
    omega
  case wsaRecv bufs =>
    exact ⟨trivial, fun bufs' h => Option.some.inj h ▸ hroom.2⟩
  case otherGroup g hg =>
    exact ⟨hafter fun hb hz hc => hg (hb ▸ (hroom hb hz hc).1), hposted⟩
  case ownGroup => exact ⟨fun hb hz hc => (hroom hb hz hc).2, hposted⟩
  case noHeader g hsize =>
    refine ⟨hafter fun hb hz hc => ?_, hposted⟩
    obtain ⟨bytes, hpeek, -⟩ := hroom hb hz hc
    have := le_size_of_peek hpeek
    omega
  case hasHeader => exact ⟨hroom, hposted⟩
  case peek g bytes hpeek =>
    refine ⟨fun hb hz hc => ?_, hposted⟩
    obtain ⟨bytes', hpeek', hset⟩ := hroom hb hz hc
    obtain rfl := Option.some.inj (hpeek.symm.trans hpeek')
    exact hset.imp_right fun hle => by omega
  case refused => exact ⟨hafter fun _ => .of_closed rfl, hposted⟩
  case short href hsize =>
    refine ⟨hafter fun hb hz hc => ?_, hposted⟩
    rcases hroom hb hz hc with href' | hle
    · rw [href] at href'
      cases href'
    · omega
  case invalid recvQ _ _ _ hdecode _ =>
    have := freeSize_add_size recvQ
    have := decode_size hdecode
    exact ⟨hafter fun _ => .of_closed rfl, hmore rfl (show _ ≤ recvQ.freeSize by omega)⟩
  case deliver recvQ _ hsize hplain _ hdequeue =>
    have := size_of_dequeue hdequeue
    have := freeSize_add_size recvQ
    exact ⟨fun _ => show 0 < recvQ.freeSize by omega,
      hmore rfl (show _ ≤ recvQ.freeSize by omega)⟩
  case returned =>
    exact ⟨fun hb hz => absurd hz (hroom hb).ne', hposted⟩
  case threw => exact ⟨hroom, hposted⟩
  case read recvQ _ _ hdequeue =>
    have := size_of_dequeue hdequeue
    have := freeSize_add_size recvQ
    have hle : s.recvQ.freeSize ≤ recvQ.freeSize := by omega
    exact ⟨fun hb => (hroom hb).trans_le hle, hmore rfl hle⟩
  case disconnect => exact ⟨fun _ => .of_closed rfl, hposted⟩
  case job | found | gone => exact ⟨hroom, hposted⟩
  case noJob => exact ⟨trivial, hposted⟩
  case clearHandled => exact ⟨fun hb => absurd hb hroom, hposted⟩

/-! ## Runs -/

/-- A receive fills the ring only for a session that is closed, or in the
base group with a packet at the front that is refused or complete; and
`MoveSession` does not take such a session out of the base group before
`RecvHandler` has looked. -/
def Fits (w : World) (e : ℕ × Event) (w' : World) : Prop :=
  (∀ n, w.threads[e.1]? = some (.moveRear n) →
    Tight w'.shared (w'.shared.groupId = BaseGroupID ∧ Settles w'.shared)) ∧
  ∀ dst, w.threads[e.1]? = some .idle → e.2 = .move dst → dst ≠ BaseGroupID →
    Tight w.shared (.execGroup ∉ w.threads ∧ .loop BaseGroupID ∉ w.threads)

/-- Every thread knows its part of the room, and so does the receive in
flight. -/
structure Roomy (w : World) : Prop where
  hands : Hands w
  knows : ∀ pc ∈ w.threads, pc.Room w.shared
  posted : ∀ bufs, w.shared.posted = some bufs → total bufs ≤ w.shared.recvQ.freeSize

theorem Roomy.step (h : Roomy w) (hst : Recv.step w e = some w') (hfits : Fits w e w') :
    Roomy w' := by
  obtain ⟨pc, pc', hpc, hnext, ht⟩ := Pool.step_eq_some hst
  have ha := next_action hnext
  have hmem := List.mem_of_getElem? hpc
  have hhands := h.hands.step hst
  have hone : pc.works = 1 → w.shared.posted = none := fun hp =>
    h.hands.posted hmem (by omega)
  obtain ⟨hnew, hposted⟩ := ha.room (h.knows pc hmem) hone h.posted fun n hn =>
    hfits.1 n (hn ▸ hpc)
  refine ⟨hhands, Pool.forall_threads_of_others ht (fun j q hj hq => ?_) hnew, hposted⟩
  have hq' := h.knows q (List.mem_of_getElem? hq)
  by_cases hw : pc.works = 0 ∧ pc'.works = 0
  · obtain ⟨hfree, hkey, hmax, hsame, hgroup⟩ := ha.quiet hw.1 hw.2
    refine hq'.quiet hfree hkey hmax hsame fun hwait hz hc hbase => ?_
    rcases hgroup with heq | ⟨rfl, hmove⟩
    · exact heq.trans hbase
    · -- a move out of the base group, past a worker that has not looked yet
      by_contra hne
      obtain ⟨hc', hring⟩ := hsame hz hc
      obtain ⟨hexec, hloop⟩ := hfits.2 _ hpc hmove hne (hring ▸ hz) hc'
      rcases hwait with rfl | rfl
      · exact hexec (List.mem_of_getElem? hq)
      · exact hloop (List.mem_of_getElem? hq)
  · exact .of_works (h.hands.alone hhands hpc ht (by omega) hj hq) _

theorem Roomy.initial (staticKey : Byte) (maxPacketLen : ℕ) (isHandled : Bool) (n : ℕ) :
    Roomy (World.initial staticKey maxPacketLen isHandled n) := by
  refine ⟨.initial _ _ _ _, fun pc hpc => ?_, fun bufs h => by cases h⟩
  rcases List.mem_cons.1 hpc with rfl | hpc
  · intro hz
    have hfree : (⟨fun _ => 0, 0, 0⟩ : CRingBuffer).freeSize = 8191 := by decide
    exact absurd (hfree.symm.trans hz) (by decide)
  · obtain rfl := List.eq_of_mem_replicate hpc
    trivial

/-- **A receive is never posted with no room**, as long as no receive fills
the ring of a session that is in a group, is taken out of the base group
right then, or has a packet at the front that is longer than the ring. -/
theorem recv_has_room {staticKey : Byte} {maxPacketLen : ℕ} {isHandled : Bool} {n : ℕ}
    (h : Runs Recv.step Fits (World.initial staticKey maxPacketLen isHandled n) w)
    {bufs : List WSABUF} (hrecv : .wsaRecv bufs ∈ w.threads) : 1 ≤ total bufs := by
  have hroomy := h.invariant (Roomy.initial staticKey maxPacketLen isHandled n)
    fun h hst hfits => h.step hst hfits
  exact (hroomy.knows _ hrecv).1

/-! ## A receive that fills the ring -/

/-- Neither a receive that completes nor a move. -/
def Event.plain : Event → Bool
  | .complete _ | .move _ => false
  | _ => true

theorem Fits.of_ne (hpc : ∀ n, w.threads[e.1]? ≠ some (.moveRear n)) (he : ∀ dst, e.2 ≠ .move dst) :
    Fits w e w' :=
  ⟨fun n hn => absurd hn (hpc n), fun dst _ hmove => absurd hmove (he dst)⟩

/-- Only a receive that completes brings a worker to `MoveRear`. -/
theorem Action.ne_moveRear {e : Event} (h : Action s pc e s' pc') (he : e.plain = true) (n : ℕ) :
    pc' ≠ .moveRear n := by
  have hafter (g : GroupID) : after g ≠ .moveRear n := by
    unfold after
    split <;> nofun
  cases h with
  | complete => cases he
  | otherGroup | noHeader | refused | short | invalid => exact hafter _
  | _ => nofun

/-- A stretch of a run in which no receive completes. -/
theorem runs_of_plain {es : List (ℕ × Event)} (hes : ∀ e ∈ es, e.2.plain = true)
    (hpc : ∀ n, .moveRear n ∉ w.threads) (h : exec Recv.step w es = some w') :
    Runs Recv.step Fits w w' := by
  induction es generalizing w with
  | nil =>
    obtain rfl := Option.some.inj h
    exact .refl
  | cons e es ih =>
    obtain ⟨v, hst, hrest⟩ := exec_cons_iff.1 h
    obtain ⟨he, hes⟩ := List.forall_mem_cons.1 hes
    have hfits : Fits w e v :=
      .of_ne (fun n hn => hpc n (List.mem_of_getElem? hn)) fun dst hmove => by
        rw [hmove] at he
        cases he
    obtain ⟨pc, pc', -, hnext, ht⟩ := Pool.step_eq_some hst
    have hne (n : ℕ) := (next_action hnext).ne_moveRear he n
    refine .head hst hfits (ih hes (fun n hn => ?_) hrest)
    rw [ht] at hn
    rcases List.mem_or_eq_of_mem_set hn with hold | hnew
    · exact hpc n hold
    · exact hne n hnew.symm

section Filled

variable {r : CRingBuffer} {f : ℕ} {bs : List Byte}

/-- A session without a key, with `r` for its ring. -/
def withRing (r : CRingBuffer) (calls : ℕ) : Recv :=
  { (World.initial 0 2048 false 1).shared with recvQ := r, calls := calls }

theorem withRing_recvQ (r : CRingBuffer) (calls : ℕ) : (withRing r calls).recvQ = r := rfl

/-- A receive takes as many bytes as the ring has room for. -/
theorem exec_fill {data : List Byte} (hlen : data.length = 8191) :
    ∃ r : CRingBuffer, Holds (r.moveRear 8191) 0 data ∧
      exec Recv.step (World.initial 0 2048 false 1)
        (List.replicate 4 (0, .go) ++ [(1, .complete data)]) =
          some ⟨withRing r 0, [.idle, .moveRear 8191]⟩ := by
  have hempty : Holds ⟨fun _ => 0, 0, 0⟩ 0 [] := ⟨rfl, rfl, by decide, nofun⟩
  obtain ⟨bufs, hbufs, -, hfill⟩ := hempty.recv
  obtain rfl : [⟨0, 8191⟩] = bufs := Option.some.inj hbufs
  obtain ⟨buffer, hscatter, hholds⟩ := hfill data hlen.le
  rw [hlen] at hholds
  refine ⟨⟨buffer, 0, 0⟩, hholds, exec_append (t := ⟨{ withRing ⟨fun _ => 0, 0, 0⟩ 0 with
    posted := some [⟨0, 8191⟩] }, [.idle, .idle]⟩) rfl (exec_cons_iff.2 ⟨_, ?_, rfl⟩)⟩
  have hfits : Session.fits [⟨0, 8191⟩] data := ⟨by omega, hlen.le⟩
  simp only [Recv.step, Pool.step, List.getElem?_cons_succ, List.getElem?_cons_zero, next, start,
    withRing, World.initial, if_pos hfits, hscatter, Option.map_some, hlen]
  rfl

theorem step_rear (r : CRingBuffer) :
    Recv.step ⟨withRing r 0, [.idle, .moveRear 8191]⟩ (1, .go) =
      some ⟨withRing (r.moveRear 8191) 0, [.idle, .execGroup]⟩ := rfl

theorem step_base (r : CRingBuffer) :
    Recv.step ⟨withRing r 0, [.idle, .execGroup]⟩ (1, .go) =
      some ⟨withRing r 0, [.idle, .loop BaseGroupID]⟩ := rfl

/-- The worker reads the header at the front. -/
theorem exec_header (h : Holds r f bs) (hlen : 2 ≤ bs.length) (calls : ℕ) :
    exec Recv.step ⟨withRing r calls, [.idle, .loop BaseGroupID]⟩ (List.replicate 3 (1, .go)) =
      some ⟨withRing r calls, [.idle, .packet BaseGroupID (bs.take 2)]⟩ := by
  have hsize : ¬(withRing r calls).recvQ.size < (withRing r calls).header.size :=
    not_lt.2 (h.size_eq.symm ▸ hlen)
  have hpeek : (withRing r calls).recvQ.peek (withRing r calls).header.size = some (bs.take 2) :=
    h.peek_eq hlen
  refine exec_cons_iff.2 ⟨⟨withRing r calls, [.idle, .size BaseGroupID]⟩, rfl,
    exec_cons_iff.2 ⟨⟨withRing r calls, [.idle, .peek BaseGroupID]⟩, ?_,
      exec_cons_iff.2 ⟨_, ?_, rfl⟩⟩⟩
  · simp only [Recv.step, Pool.step, List.getElem?_cons_succ, List.getElem?_cons_zero, next,
      nextHandler, if_neg hsize]
    rfl
  · simp only [Recv.step, Pool.step, List.getElem?_cons_succ, List.getElem?_cons_zero, next,
      nextHandler, hpeek]
    rfl

/-- A packet that is not complete: the worker goes on to the next receive. -/
theorem step_short (h : Holds r f bs) (hlen : bs.length < Header.len (bs.take 2) .LANHeader + 2)
    (calls : ℕ) :
    Recv.step ⟨withRing r calls, [.idle, .packet BaseGroupID (bs.take 2)]⟩ (1, .callback .done) =
      some ⟨withRing r calls, [.idle, .recvConnect]⟩ := by
  have hsize : (withRing r calls).recvQ.size <
      (withRing r calls).header.len (bs.take 2) + (withRing r calls).header.size :=
    h.size_eq.symm ▸ hlen
  simp only [Recv.step, Pool.step, List.getElem?_cons_succ, List.getElem?_cons_zero, next,
    nextHandler, packet, if_pos hsize]
  rfl

/-- A packet without a payload is delivered. -/
theorem exec_empty (h : Holds r f bs) (hlen : 2 ≤ bs.length)
    (hempty : Header.len (bs.take 2) .LANHeader = 0) (calls : ℕ) :
    ∃ r', Holds r' (f + 2) (bs.drop 2) ∧
      exec Recv.step ⟨withRing r calls, [.idle, .packet BaseGroupID (bs.take 2)]⟩
        [(1, .callback .done), (1, .go)] =
          some ⟨withRing r' (calls + 1), [.idle, .loop BaseGroupID]⟩ := by
  obtain ⟨m, r', hdequeue, hholds⟩ := h.dequeue_eq hlen
  have hsize : ¬(withRing r calls).recvQ.size <
      (withRing r calls).header.len (bs.take 2) + (withRing r calls).header.size := by
    rw [show (withRing r calls).header = .LANHeader from rfl, hempty]
    exact not_lt.2 (h.size_eq.symm ▸ hlen)
  have hdeliver : (withRing r calls).recvQ.dequeue (withRing r calls).header.size = some (m, r') :=
    hdequeue
  refine ⟨r', hholds, exec_cons_iff.2 ⟨⟨withRing r' (calls + 1), [.idle,
    .callback BaseGroupID .done (Header.len (bs.take 2) .LANHeader)]⟩, ?_, rfl⟩⟩
  simp only [Recv.step, Pool.step, List.getElem?_cons_succ, List.getElem?_cons_zero, next,
    nextHandler, packet, if_neg hsize, deliver, hdeliver]
  rfl

/-- The worker asks how much is free up to the end of the array. -/
theorem exec_direct (h : Holds r f bs) (calls : ℕ) :
    exec Recv.step ⟨withRing r calls, [.idle, .recvConnect]⟩ (List.replicate 2 (1, .go)) =
      some ⟨withRing r calls,
        [.idle, .recvFree (min (8191 - bs.length) (8192 - (f + bs.length) % 8192))]⟩ := by
  have hdirect : (withRing r calls).recvQ.directEnqueueSize =
      some (min (8191 - bs.length) (8192 - (f + bs.length) % 8192)) := by
    rw [directEnqueueSize_eq, ← h.freeSize_eq, ← h.getIndex_rear]
    rfl
  refine exec_cons_iff.2 ⟨⟨withRing r calls, [.idle, .recvDirect]⟩, rfl,
    exec_cons_iff.2 ⟨_, ?_, rfl⟩⟩
  simp only [Recv.step, Pool.step, List.getElem?_cons_succ, List.getElem?_cons_zero, next,
    nextWorker, hdirect]
  rfl

end Filled

/-- From the first posting of a receive to the second, with `data` received
in between and its first packet delivered. -/
def receiveEmpty (data : List Byte) : List (ℕ × Event) :=
  receive data ++ (1, .callback .done) :: List.replicate 4 (1, .go) ++
    (1, .callback .done) :: List.replicate 4 (1, .go)

/-- A first receive fills the ring. It begins with a packet without a payload,
and the second receive is posted for its two bytes. -/
theorem recv_has_room_filled : ∃ data : List Byte, data.length = 8191 ∧ ∃ w,
    exec Recv.step (World.initial 0 2048 false 1) (receiveEmpty data) = some w ∧
      w.shared.calls = 1 ∧ .wsaRecv [⟨8191, 1⟩, ⟨0, 1⟩] ∈ w.threads ∧
        1 ≤ total [⟨8191, 1⟩, ⟨0, 1⟩] := by
  obtain ⟨data, hlen, hfirst, hsecond⟩ : ∃ data : List Byte, data.length = 8191 ∧
      data.take 2 = [0, 0] ∧ (data.drop 2).take 2 = [0xff, 0xff] :=
    ⟨0 :: 0 :: 0xff :: 0xff :: List.replicate 8187 0, by
      rw [List.length_cons, List.length_cons, List.length_cons, List.length_cons,
        List.length_replicate], rfl, rfl⟩
  have hdrop : (data.drop 2).length = 8189 := by
    rw [List.length_drop]
    omega
  obtain ⟨r, hr, hfill⟩ := exec_fill hlen
  have hheader := exec_header hr (by omega) 0
  obtain ⟨r', hr', hempty⟩ := exec_empty hr (by omega) (by rw [hfirst]; rfl) 0
  have hnext := exec_header hr' (by omega) 1
  have hshort := step_short hr' (by rw [hdrop, hsecond]; decide) 1
  have hdirect := exec_direct hr' 1
  rw [hdrop] at hdirect
  have hfree : (withRing r' 1).recvQ.freeSize = 2 := by
    rw [withRing_recvQ, hr'.freeSize_eq, hdrop]
  have hlast : getIndex (withRing r' 1).recvQ.rear = 8191 := by
    rw [withRing_recvQ, hr'.getIndex_rear, hdrop]
  have htwo : exec Recv.step ⟨withRing r' 1, [.idle, .recvFree 1]⟩ (List.replicate 2 (1, .go)) =
      some ⟨withRing r' 1, [.idle, .wsaRecv [⟨8191, 1⟩, ⟨0, 1⟩]]⟩ := by
    refine exec_cons_iff.2 ⟨⟨withRing r' 1, [.idle, .recvSecond 1]⟩, ?_,
      exec_cons_iff.2 ⟨_, ?_, rfl⟩⟩
    · simp only [Recv.step, Pool.step, List.getElem?_cons_succ, List.getElem?_cons_zero, next,
        nextWorker, hfree]
      rfl
    · simp only [Recv.step, Pool.step, List.getElem?_cons_succ, List.getElem?_cons_zero, next,
        nextWorker, hfree, hlast]
      rfl
  -- the ring is full when its rear has moved, and its first packet is complete
  have hfits : Fits ⟨withRing r 0, [.idle, .moveRear 8191]⟩ (1, .go)
      ⟨withRing (r.moveRear 8191) 0, [.idle, .execGroup]⟩ := by
    have htwo : 2 ≤ data.length := by omega
    refine ⟨fun _ _ _ _ => ⟨rfl, data.take 2, hr.peek_eq htwo, .inr ?_⟩, fun _ _ hmove => by
      cases hmove⟩
    change Header.len (data.take 2) .LANHeader + 2 ≤ (r.moveRear 8191).size
    rw [hr.size_eq, hfirst, hlen]
    exact of_decide_eq_true rfl
  obtain ⟨v, hposted, hcomplete⟩ := exec_append_iff.1 hfill
  have hthreads : v.threads = [.idle, .idle] :=
    (Option.some.inj (congrArg (Option.map Pool.threads) hposted)).symm
  have hbefore : Runs Recv.step Fits (World.initial 0 2048 false 1)
      ⟨withRing r 0, [.idle, .moveRear 8191]⟩ := by
    obtain ⟨_, hstep, hend⟩ := exec_cons_iff.1 hcomplete
    obtain rfl := Option.some.inj hend
    refine .tail (runs_of_plain (by decide) (by simp [World.initial]) hposted) hstep
      (.of_ne (fun n hn => ?_) fun dst hmove => ?_)
    · rw [hthreads] at hn
      cases hn
    · cases hmove
  have hafter := exec_append (exec_cons_iff.2 ⟨_, step_base _, hheader⟩) (exec_append hempty
    (exec_append hnext (exec_cons_iff.2 ⟨_, hshort, exec_append hdirect htwo⟩)))
  have hmem : Pc.wsaRecv [⟨8191, 1⟩, ⟨0, 1⟩] ∈ [Pc.idle, .wsaRecv [⟨8191, 1⟩, ⟨0, 1⟩]] := by simp
  have hall := exec_append hfill (exec_cons_iff.2 ⟨_, step_rear r, hafter⟩)
  have hruns := (hbefore.tail (step_rear r) hfits).trans (runs_of_plain (by decide) (by simp) hafter)
  exact ⟨data, hlen, _, hall, rfl, hmem, recv_has_room hruns hmem⟩

/-- From the first posting of a receive to the second, with `data` received
in between. -/
def receiveOnce (data : List Byte) : List (ℕ × Event) :=
  List.replicate 4 (0, .go) ++ (1, .complete data) :: List.replicate 5 (1, .go) ++
    (1, .callback .done) :: List.replicate 3 (1, .go)

/-- **A receive with no room.** A session without a key receives 8191 bytes
of a packet that says it is 65535 bytes long. `RecvHandler` waits for the
rest, the ring is full, and the next receive is posted with no buffer to
write to. -/
theorem recv_without_room : ∃ data : List Byte, data.length = 8191 ∧ ∃ w,
    exec Recv.step (World.initial 0 2048 false 1) (receiveOnce data) = some w ∧
      .wsaRecv [⟨8191, 0⟩] ∈ w.threads ∧ total [⟨8191, 0⟩] = 0 := by
  obtain ⟨data, hlen, hfirst⟩ : ∃ data : List Byte, data.length = 8191 ∧
      data.take 2 = [0xff, 0xff] :=
    ⟨0xff :: 0xff :: List.replicate 8189 0, by
      rw [List.length_cons, List.length_cons, List.length_replicate], rfl⟩
  obtain ⟨r, hr, hfill⟩ := exec_fill hlen
  have hheader := exec_header hr (by omega) 0
  have hshort := step_short hr (by rw [hlen, hfirst]; decide) 0
  have hdirect := exec_direct hr 0
  rw [hlen] at hdirect
  have hfree : (withRing (r.moveRear 8191) 0).recvQ.freeSize = 0 := by
    rw [withRing_recvQ, hr.freeSize_eq, hlen]
  have hlast : getIndex (withRing (r.moveRear 8191) 0).recvQ.rear = 8191 := by
    rw [withRing_recvQ, hr.getIndex_rear, hlen]
  have hone : exec Recv.step ⟨withRing (r.moveRear 8191) 0, [.idle, .recvFree 0]⟩ [(1, .go)] =
      some ⟨withRing (r.moveRear 8191) 0, [.idle, .wsaRecv [⟨8191, 0⟩]]⟩ := by
    refine exec_cons_iff.2 ⟨_, ?_, rfl⟩
    simp only [Recv.step, Pool.step, List.getElem?_cons_succ, List.getElem?_cons_zero, next,
      nextWorker, hfree, hlast]
    rfl
  have hafter := exec_append (exec_cons_iff.2 ⟨_, step_base _, hheader⟩)
    (exec_cons_iff.2 ⟨_, hshort, exec_append hdirect hone⟩)
  have hall := exec_append hfill (exec_cons_iff.2 ⟨_, step_rear r, hafter⟩)
  exact ⟨data, hlen, _, hall, List.mem_cons_of_mem _ List.mem_cons_self, rfl⟩

end Recv

end NetLib
