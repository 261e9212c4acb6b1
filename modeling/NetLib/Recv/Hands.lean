import NetLib.Recv.Model
/-!
# Who may touch the receive ring

There is one receive in flight or one worker that has it in hand, and each
group is run by one thread.
-/

namespace NetLib

namespace Recv

variable {s s' : Recv} {w w' : World} {pc pc' : Pc} {e : Event}

/-- The group a thread handles packets or jobs for. -/
def Pc.group : Pc → Option GroupID
  | .loop g | .size g | .peek g | .packet g _ | .callback g _ _ | .disconnect g
  | .handleJob g | .findSession g | .clearHandled g => some g
  | _ => none

/-- Has the thread the session's receive in hand? -/
def Pc.works : Pc → ℕ
  | .idle => 0
  | .loop g | .size g | .peek g | .packet g _ | .callback g _ _ | .disconnect g
  | .handleJob g | .findSession g | .clearHandled g => if g = BaseGroupID then 1 else 0
  | _ => 1

/-- Is a receive in flight? -/
def inFlight (s : Recv) : ℕ := if s.posted.isSome then 1 else 0

@[simp] theorem after_base : after BaseGroupID = .recvConnect := if_pos rfl

theorem works_after {g : GroupID} : (after g).works = if g = BaseGroupID then 1 else 0 := by
  unfold after
  split
  · rfl
  · exact if_neg ‹_›

/-- Is the thread in `Update` of the group `g`? -/
def Pc.runs (g : GroupID) (pc : Pc) : ℕ := if pc.group = some g then 1 else 0

theorem runs_after {g g' : GroupID} (hg : g ≠ BaseGroupID) :
    (after g').runs g = (Pc.loop g').runs g := by
  unfold Pc.runs after
  split
  · rename_i hbase
    subst hbase
    rw [if_neg (by simp [Pc.group]), if_neg (by simpa [Pc.group] using hg.symm)]
  · rfl

/-! ## What a step can do -/

/-- Every action of a thread, with what it saw. -/
inductive Action (s : Recv) : Pc → Event → Recv → Pc → Prop
  | complete {data : List Byte} {bufs : List WSABUF} (buffer : ℕ → Byte)
    (hposted : s.posted = some bufs) (hfits : Session.fits bufs data) :
    Action s .idle (.complete data)
      { s with recvQ := { s.recvQ with buffer := buffer }, posted := none } (.moveRear data.length)
  | ended (hposted : s.posted.isSome) : Action s .idle .ended { s with posted := none } .idle
  | close : Action s .idle .close { s with connect := false } .idle
  | move (dst : GroupID) : Action s .idle (.move dst) { s with groupId := dst } .idle
  | update {g : GroupID} (hg : g ≠ BaseGroupID) (hrun : s.isRun g = false) :
    Action s .idle (.update g) { s with isRun := Function.update s.isRun g true } (.handleJob g)
  | moveRear (n : ℕ) (e : Event) :
    Action s (.moveRear n) e { s with recvQ := s.recvQ.moveRear n } .execGroup
  | inGroup (e : Event) (hg : s.groupId ≠ BaseGroupID) : Action s .execGroup e s .execHandled
  | inBase (e : Event) (hg : s.groupId = BaseGroupID) :
    Action s .execGroup e s (.loop BaseGroupID)
  | handled (e : Event) (hh : s.isHandled = true) :
    Action s .execHandled e s (.loop BaseGroupID)
  | unhandled (e : Event) (hh : s.isHandled = false) : Action s .execHandled e s .setHandled
  | setHandled (e : Event) : Action s .setHandled e { s with isHandled := true } .onRecv
  | onRecv (e : Event) (hg : s.groupId ≠ BaseGroupID) : Action s .onRecv e s (.enqueue s.groupId)
  | enqueue (g : GroupID) (e : Event) :
    Action s (.enqueue g) e { s with jobs := Function.update s.jobs g (s.jobs g + 1) } .recvConnect
  | connected (e : Event) (hc : s.connect = true) : Action s .recvConnect e s .recvDirect
  | released (e : Event) (hc : s.connect = false) : Action s .recvConnect e s .idle
  | recvDirect {direct : ℕ} (e : Event) (hd : s.recvQ.directEnqueueSize = some direct) :
    Action s .recvDirect e s (.recvFree direct)
  | recvTwo {direct : ℕ} (e : Event) (hd : direct < s.recvQ.freeSize) :
    Action s (.recvFree direct) e s (.recvSecond direct)
  | recvOne {direct : ℕ} (e : Event) (hd : s.recvQ.freeSize ≤ direct) :
    Action s (.recvFree direct) e s (.wsaRecv [⟨CRingBuffer.getIndex s.recvQ.rear, direct⟩])
  | recvSecond (direct : ℕ) (e : Event) :
    Action s (.recvSecond direct) e s (.wsaRecv
      [⟨CRingBuffer.getIndex s.recvQ.rear, direct⟩, ⟨0, s.recvQ.freeSize - direct⟩])
  | wsaRecv (bufs : List WSABUF) (e : Event) :
    Action s (.wsaRecv bufs) e { s with posted := some bufs } .idle
  | otherGroup {g : GroupID} (e : Event) (hg : s.groupId ≠ g) : Action s (.loop g) e s (after g)
  | ownGroup {g : GroupID} (e : Event) (hg : s.groupId = g) : Action s (.loop g) e s (.size g)
  | noHeader {g : GroupID} (e : Event) (hsize : s.recvQ.size < s.header.size) :
    Action s (.size g) e s (after g)
  | hasHeader {g : GroupID} (e : Event) (hsize : s.header.size ≤ s.recvQ.size) :
    Action s (.size g) e s (.peek g)
  | peek {g : GroupID} {bytes : List Byte} (e : Event)
    (hpeek : s.recvQ.peek s.header.size = some bytes) : Action s (.peek g) e s (.packet g bytes)
  | refused {g : GroupID} {bytes : List Byte} {reader : Reader}
    (href : s.header.refuses s.maxPacketLen bytes = true) :
    Action s (.packet g bytes) (.callback reader) s.violate (after g)
  | short {g : GroupID} {bytes : List Byte} {reader : Reader}
    (href : s.header.refuses s.maxPacketLen bytes = false)
    (hsize : s.recvQ.size < s.header.len bytes + s.header.size) :
    Action s (.packet g bytes) (.callback reader) s (after g)
  | invalid {g : GroupID} {bytes : List Byte} {reader : Reader} {recvQ : CRingBuffer}
    (hkey : s.header = .NetHeader)
    (href : s.header.refuses s.maxPacketLen bytes = false)
    (hsize : s.header.len bytes + s.header.size ≤ s.recvQ.size)
    (hdecode : s.recvQ.decode s.staticKey = some recvQ)
    (hvalid : recvQ.checksumValid = some false) :
    Action s (.packet g bytes) (.callback reader) { s with recvQ := recvQ }.violate (after g)
  | deliver {g : GroupID} {bytes : List Byte} {reader : Reader} {m : ℕ}
    {plain recvQ : CRingBuffer}
    (href : s.header.refuses s.maxPacketLen bytes = false)
    (hsize : s.header.len bytes + s.header.size ≤ s.recvQ.size)
    (hplain : plain.size = s.recvQ.size)
    (hdecode : s.header = .NetHeader →
      s.recvQ.decode s.staticKey = some plain ∧ plain.checksumValid = some true)
    (hdequeue : plain.dequeue s.header.size = some (m, recvQ)) :
    Action s (.packet g bytes) (.callback reader) { s with recvQ := recvQ, calls := s.calls + 1 }
      (.callback g reader (s.header.len bytes))
  | returned (g : GroupID) (left : ℕ) (e : Event) : Action s (.callback g .done left) e s (.loop g)
  | threw {g : GroupID} {n left : ℕ} {k : List Byte → Reader} (e : Event) (hleft : left < n) :
    Action s (.callback g (.read n k) left) e s (.disconnect g)
  | read {g : GroupID} {n m left : ℕ} {k : List Byte → Reader} {bytes : List Byte}
    {recvQ : CRingBuffer} (e : Event) (hleft : n ≤ left) (hpeek : s.recvQ.peek n = some bytes)
    (hdequeue : s.recvQ.dequeue n = some (m, recvQ)) :
    Action s (.callback g (.read n k) left) e { s with recvQ := recvQ }
      (.callback g (k bytes) (left - n))
  | disconnect (g : GroupID) (e : Event) : Action s (.disconnect g) e s.violate (.loop g)
  | job {g : GroupID} (e : Event) (hjob : 0 < s.jobs g) :
    Action s (.handleJob g) e { s with jobs := Function.update s.jobs g (s.jobs g - 1) }
      (.findSession g)
  | noJob {g : GroupID} (e : Event) (hjob : s.jobs g = 0) :
    Action s (.handleJob g) e { s with isRun := Function.update s.isRun g false } .idle
  | found (g : GroupID) : Action s (.findSession g) .go s (.clearHandled g)
  | gone {g : GroupID} (hc : s.connect = false) : Action s (.findSession g) .gone s (.handleJob g)
  | clearHandled (g : GroupID) (e : Event) :
    Action s (.clearHandled g) e { s with isHandled := false } (.loop g)

theorem header_size_pos (h : Header) : 2 ≤ h.size := by
  cases h <;> decide

theorem decode_size {r plain : CRingBuffer} {key : Byte} (h : r.decode key = some plain) :
    plain.size = r.size := by
  simp only [CRingBuffer.decode, Option.map_eq_some_iff] at h
  obtain ⟨bytes, -, rfl⟩ := h
  rfl

theorem packet_action {g : GroupID} {bytes : List Byte} {reader : Reader}
    (h : packet s g bytes reader = some (s', pc')) :
    Action s (.packet g bytes) (.callback reader) s' pc' := by
  unfold packet at h
  split at h
  · rename_i href
    obtain ⟨rfl, rfl⟩ := Prod.mk.inj (Option.some.inj h)
    exact .refused href
  rename_i href
  rw [Bool.not_eq_true] at href
  split at h
  · rename_i hsize
    obtain ⟨rfl, rfl⟩ := Prod.mk.inj (Option.some.inj h)
    exact .short href hsize
  rename_i hsize
  rw [not_lt] at hsize
  split at h
  · rename_i hkey
    obtain ⟨plain, hdecode, h⟩ := Option.bind_eq_some_iff.1 h
    obtain ⟨valid, hvalid, h⟩ := Option.bind_eq_some_iff.1 h
    cases valid with
    | true =>
      obtain ⟨⟨m, recvQ⟩, hdequeue, heq⟩ := Option.map_eq_some_iff.1 h
      obtain ⟨rfl, rfl⟩ := Prod.mk.inj heq
      rw [← hkey]
      exact .deliver href hsize (decode_size hdecode) (fun _ => ⟨hdecode, hvalid⟩) hdequeue
    | false =>
      obtain ⟨rfl, rfl⟩ := Prod.mk.inj (Option.some.inj h)
      exact .invalid hkey href hsize hdecode hvalid
  · rename_i hkey
    obtain ⟨⟨m, recvQ⟩, hdequeue, heq⟩ := Option.map_eq_some_iff.1 h
    obtain ⟨rfl, rfl⟩ := Prod.mk.inj heq
    rw [← hkey]
    exact .deliver href hsize rfl (fun hnet => by rw [hkey] at hnet; cases hnet) hdequeue

/-- **What a step is.** -/
theorem next_action (h : next s pc e = some (s', pc')) : Action s pc e s' pc' := by
  cases pc with
  | idle =>
    cases e with
    | complete data =>
      simp only [next, start] at h
      cases hposted : s.posted with
      | none => simp [hposted] at h
      | some bufs =>
        simp only [hposted] at h
        split at h
        · rename_i hfits
          obtain ⟨buffer, -, heq⟩ := Option.map_eq_some_iff.1 h
          obtain ⟨rfl, rfl⟩ := Prod.mk.inj heq
          exact .complete buffer hposted hfits
        · cases h
    | ended =>
      simp only [next, start] at h
      split at h
      · rename_i hposted
        obtain ⟨rfl, rfl⟩ := Prod.mk.inj (Option.some.inj h)
        exact .ended hposted
      · cases h
    | close =>
      obtain ⟨rfl, rfl⟩ := Prod.mk.inj (Option.some.inj h)
      exact .close
    | move dst =>
      obtain ⟨rfl, rfl⟩ := Prod.mk.inj (Option.some.inj h)
      exact .move dst
    | update g =>
      simp only [next, start] at h
      split at h
      · cases h
      · rename_i hg
        rw [not_or, Bool.not_eq_true] at hg
        obtain ⟨rfl, rfl⟩ := Prod.mk.inj (Option.some.inj h)
        exact .update hg.1 hg.2
    | _ => cases h
  | moveRear n =>
    obtain ⟨rfl, rfl⟩ := Prod.mk.inj (Option.some.inj h)
    exact .moveRear n e
  | execGroup =>
    obtain ⟨rfl, rfl⟩ := Prod.mk.inj (Option.some.inj h)
    split
    · exact .inGroup e ‹_›
    · exact .inBase e (not_not.1 ‹_›)
  | execHandled =>
    obtain ⟨rfl, rfl⟩ := Prod.mk.inj (Option.some.inj h)
    split
    · exact .handled e ‹_›
    · exact .unhandled e (Bool.eq_false_of_not_eq_true ‹_›)
  | setHandled =>
    obtain ⟨rfl, rfl⟩ := Prod.mk.inj (Option.some.inj h)
    exact .setHandled e
  | onRecv =>
    simp only [next, nextWorker] at h
    split at h
    · obtain ⟨rfl, rfl⟩ := Prod.mk.inj (Option.some.inj h)
      exact .onRecv e ‹_›
    · cases h
  | enqueue g =>
    obtain ⟨rfl, rfl⟩ := Prod.mk.inj (Option.some.inj h)
    exact .enqueue g e
  | loop g =>
    obtain ⟨rfl, rfl⟩ := Prod.mk.inj (Option.some.inj h)
    split
    · exact .otherGroup e ‹_›
    · exact .ownGroup e (not_not.1 ‹_›)
  | size g =>
    obtain ⟨rfl, rfl⟩ := Prod.mk.inj (Option.some.inj h)
    split
    · exact .noHeader e ‹_›
    · exact .hasHeader e (not_lt.1 ‹_›)
  | peek g =>
    obtain ⟨bytes, hpeek, heq⟩ := Option.map_eq_some_iff.1 h
    obtain ⟨rfl, rfl⟩ := Prod.mk.inj heq
    exact .peek e hpeek
  | packet g bytes =>
    cases e with
    | callback reader => exact packet_action h
    | _ => cases h
  | callback g reader left =>
    cases reader with
    | done =>
      obtain ⟨rfl, rfl⟩ := Prod.mk.inj (Option.some.inj h)
      exact .returned g left e
    | read n k =>
      simp only [next, nextHandler] at h
      split at h
      · obtain ⟨rfl, rfl⟩ := Prod.mk.inj (Option.some.inj h)
        exact .threw e ‹_›
      · obtain ⟨bytes, hpeek, h⟩ := Option.bind_eq_some_iff.1 h
        obtain ⟨⟨m, recvQ⟩, hdequeue, heq⟩ := Option.map_eq_some_iff.1 h
        obtain ⟨rfl, rfl⟩ := Prod.mk.inj heq
        exact .read e (not_lt.1 ‹_›) hpeek hdequeue
  | disconnect g =>
    obtain ⟨rfl, rfl⟩ := Prod.mk.inj (Option.some.inj h)
    exact .disconnect g e
  | recvConnect =>
    obtain ⟨rfl, rfl⟩ := Prod.mk.inj (Option.some.inj h)
    split
    · exact .connected e ‹_›
    · exact .released e (Bool.eq_false_of_not_eq_true ‹_›)
  | recvDirect =>
    obtain ⟨direct, hd, heq⟩ := Option.map_eq_some_iff.1 h
    obtain ⟨rfl, rfl⟩ := Prod.mk.inj heq
    exact .recvDirect e hd
  | recvFree direct =>
    obtain ⟨rfl, rfl⟩ := Prod.mk.inj (Option.some.inj h)
    split
    · exact .recvTwo e ‹_›
    · exact .recvOne e (not_lt.1 ‹_›)
  | recvSecond direct =>
    obtain ⟨rfl, rfl⟩ := Prod.mk.inj (Option.some.inj h)
    exact .recvSecond direct e
  | wsaRecv bufs =>
    obtain ⟨rfl, rfl⟩ := Prod.mk.inj (Option.some.inj h)
    exact .wsaRecv bufs e
  | handleJob g =>
    simp only [next, nextGroup] at h
    split at h
    · obtain ⟨rfl, rfl⟩ := Prod.mk.inj (Option.some.inj h)
      exact .job e ‹_›
    · obtain ⟨rfl, rfl⟩ := Prod.mk.inj (Option.some.inj h)
      exact .noJob e (Nat.eq_zero_of_not_pos ‹_›)
  | findSession g =>
    cases e with
    | go =>
      obtain ⟨rfl, rfl⟩ := Prod.mk.inj (Option.some.inj h)
      exact .found g
    | gone =>
      simp only [next, nextGroup] at h
      split at h
      · cases h
      · obtain ⟨rfl, rfl⟩ := Prod.mk.inj (Option.some.inj h)
        exact .gone (Bool.eq_false_of_not_eq_true ‹_›)
    | _ => cases h
  | clearHandled g =>
    obtain ⟨rfl, rfl⟩ := Prod.mk.inj (Option.some.inj h)
    exact .clearHandled g e

/-- Only `MoveSession` moves the session. -/
theorem Action.groupId (h : Action s pc e s' pc') :
    s'.groupId = s.groupId ∨ pc = .idle ∧ e = .move s'.groupId := by
  cases h
  case move => exact .inr ⟨rfl, rfl⟩
  all_goals exact .inl rfl

/-! ## The receive -/

/-- **The receive stays in one hand.** -/
theorem Action.works (h : Action s pc e s' pc') :
    pc'.works + s'.inFlight ≤ pc.works + s.inFlight := by
  cases h
  case complete hposted _ => simp [Pc.works, inFlight, hposted]
  case ended => simp [Pc.works, inFlight]
  case wsaRecv => simp [Pc.works, inFlight]
  case released | noJob => exact Nat.add_le_add_right (Nat.zero_le _) _
  case update hg _ => exact Nat.add_le_add_right (if_neg hg).le _
  case otherGroup | noHeader | refused | short | invalid =>
    exact Nat.add_le_add_right works_after.le _
  all_goals exact Nat.le_refl _

/-- **A group is run by one thread.** -/
theorem Action.runs (h : Action s pc e s' pc') {g : GroupID} (hg : g ≠ BaseGroupID) :
    pc'.runs g + (if s.isRun g then 1 else 0) ≤ pc.runs g + (if s'.isRun g then 1 else 0) := by
  have hbase : (Pc.loop BaseGroupID).runs g = 0 := if_neg (by simpa [Pc.group] using hg.symm)
  cases h
  case update g' _ hrun =>
    by_cases heq : g' = g
    · subst heq
      simp [Pc.runs, Pc.group, hrun]
    · simp [Pc.runs, Pc.group, heq, Function.update_of_ne (Ne.symm heq)]
  case noJob g' _ =>
    by_cases heq : g' = g
    · subst heq
      simp [Pc.runs, Pc.group]
      split <;> omega
    · simp [Pc.runs, Pc.group, heq, Function.update_of_ne (Ne.symm heq)]
  case inBase | handled =>
    rw [hbase]
    exact Nat.le_refl _
  case otherGroup => rw [runs_after hg]
  case noHeader | refused | short | invalid =>
    rw [runs_after hg]
    exact Nat.le_refl _
  all_goals exact Nat.le_refl _

/-- There is one receive, and one thread for each group. -/
structure Hands (w : World) : Prop where
  receive : w.total Pc.works + w.shared.inFlight ≤ 1
  update : ∀ g ≠ BaseGroupID, w.total (Pc.runs g) ≤ if w.shared.isRun g then 1 else 0

theorem Hands.initial (staticKey : Byte) (maxPacketLen : ℕ) (isHandled : Bool) (n : ℕ) :
    Hands (World.initial staticKey maxPacketLen isHandled n) := by
  constructor
  · simp [World.initial, Pool.total, Pc.works, inFlight]
  · intro g _
    simp [World.initial, Pool.total, Pc.runs, Pc.group]

theorem Hands.step {e : ℕ × Event} (h : Hands w) (hst : Recv.step w e = some w') : Hands w' := by
  obtain ⟨pc, pc', hpc, hnext, ht⟩ := Pool.step_eq_some hst
  have ha := next_action hnext
  constructor
  · have hworks := ha.works
    have := Pool.total_step Pc.works hpc ht
    have := h.receive
    omega
  · intro g hg
    have hruns := ha.runs hg
    have := Pool.total_step (Pc.runs g) hpc ht
    have := h.update g hg
    omega

/-- While one thread has the receive in hand, none is in flight. -/
theorem Hands.posted (h : Hands w) (hpc : pc ∈ w.threads) (hp : pc.works ≠ 0) :
    w.shared.posted = none := by
  have hle := h.receive
  have := Pool.le_total Pc.works hpc
  by_contra hne
  rw [inFlight, if_pos (Option.isSome_iff_ne_none.2 hne)] at hle
  omega

/-- The thread that has the receive in hand, or has just taken it or let go
of it, is the only one. -/
theorem Hands.alone {i j : ℕ} {q : Pc} (h : Hands w) (h' : Hands w')
    (hpc : w.threads[i]? = some pc) (ht : w'.threads = w.threads.set i pc')
    (hw : pc.works ≠ 0 ∨ pc'.works ≠ 0) (hij : i ≠ j) (hj : w.threads[j]? = some q) :
    q.works = 0 := by
  have hle := h.receive
  have hle' := h'.receive
  have hj' : w'.threads[j]? = some q := by rw [ht, List.getElem?_set_ne hij, hj]
  obtain ⟨hlt, -⟩ := List.getElem?_eq_some_iff.1 hpc
  have hi' : w'.threads[i]? = some pc' := by rw [ht, List.getElem?_set_self hlt]
  rcases hw with hp | hp
  · exact Pool.eq_zero_of_other (by omega) hij hpc hj
  · exact Pool.eq_zero_of_other (by omega) hij hi' hj'

/-- A short run: thread 0 posts the first receive, thread 1 completes it with
`data` and reads the header at the front. -/
def receive (data : List Byte) : List (ℕ × Event) :=
  List.replicate 4 (0, .go) ++ (1, .complete data) :: List.replicate 5 (1, .go)

end Recv

end NetLib
