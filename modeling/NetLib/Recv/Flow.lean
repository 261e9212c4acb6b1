import NetLib.Recv.Consumer
import NetLib.Recv.Held
import NetLib.Recv.Violation
/-!
# Where the bytes of a session are

A history is kept of what has arrived for a session and of what its packet
callbacks have read. Every byte that has arrived is handed over, in the hand
of the packet callback that runs, in the ring, or behind its rear, and the
reference parser reads them in this order. Each step of a worker or of the
handler keeps that.
-/

namespace NetLib

open CRingBuffer Framing

namespace Recv

/-- The session, and what its threads have done so far. -/
structure Stream where
  world : World
  /-- History: the bytes that have arrived. -/
  arrived : List Byte
  /-- History: what the packet callback that runs has read. -/
  reading : List Byte
  /-- History: what each packet callback that has returned has read. -/
  handed : List (List Byte)

/-- What a step adds to the history. -/
def Stream.record (t : Stream) : Pc → Event → Stream
  | .idle, .complete data => { t with arrived := t.arrived ++ data }
  | .callback _ (.read n _) left, _ =>
    if left < n then t
    else { t with reading := t.reading ++ (t.world.shared.recvQ.peek n).getD [] }
  | .callback _ .done _, _ => { t with reading := [], handed := t.handed ++ [t.reading] }
  | .disconnect _, _ => { t with reading := [] }
  | _, _ => t

def Stream.step (t : Stream) (e : ℕ × Event) : Option Stream :=
  (t.world.threads[e.1]?).bind fun pc =>
    (Recv.step t.world e).map fun w => { t.record pc e.2 with world := w }

/-- A session that was just accepted: nothing has arrived. -/
def Stream.initial (staticKey : Byte) (maxPacketLen : ℕ) (isHandled : Bool) (n : ℕ) : Stream :=
  ⟨.initial staticKey maxPacketLen isHandled n, [], [], []⟩

variable {t t' : Stream} {w w' : World} {s s' : Recv} {pc pc' : Pc} {e : ℕ × Event}
variable {f : ℕ} {bs tail : List Byte}

/-- **What a step of the stream is.** -/
theorem Stream.step_eq_some (h : t.step e = some t') :
    ∃ pc pc', t.world.threads[e.1]? = some pc ∧ Recv.step t.world e = some t'.world ∧
      next t.world.shared pc e.2 = some (t'.world.shared, pc') ∧
      t'.world.threads = t.world.threads.set e.1 pc' ∧
      t' = { t.record pc e.2 with world := t'.world } := by
  obtain ⟨pc, hpc, h⟩ := Option.bind_eq_some_iff.1 h
  obtain ⟨w, hw, rfl⟩ := Option.map_eq_some_iff.1 h
  obtain ⟨pc₁, pc', hpc₁, hnext, ht⟩ := Pool.step_eq_some hw
  obtain rfl := Option.some.inj (hpc.symm.trans hpc₁)
  exact ⟨pc, pc', hpc, hw, hnext, ht, rfl⟩

/-! ## Where the bytes are -/

/-- Is the thread in a packet callback? -/
def Pc.calling : Pc → ℕ
  | .callback _ _ _ => 1
  | _ => 0

/-- How much of its packet the callback has not read yet. -/
def Pc.left : Pc → ℕ
  | .callback _ _ left => left
  | _ => 0

/-- How far the thread is about to move the rear. -/
def Pc.moving : Pc → ℕ
  | .moveRear n => n
  | _ => 0

/-- What the thread knows of the bytes in the ring. -/
def Pc.Knows (header : Header) (bs : List Byte) : Pc → Prop
  | .packet _ bytes => header.size ≤ bs.length ∧ bytes = bs.take header.size
  | .callback _ reader left => left ≤ bs.length ∧ reader.Exact left
  | .disconnect _ => False
  | .wsaRecv bufs => GoesOn bufs
  | _ => True

theorem Pc.calling_of_checked (h : pc.checked = none) : pc.calling = 0 := by
  cases pc with
  | callback => cases h
  | _ => rfl

theorem Pc.left_of_checked (h : pc.checked = none) : pc.left = 0 := by
  cases pc with
  | callback => cases h
  | _ => rfl

theorem Pc.moving_of_works (h : pc.works = 0) : pc.moving = 0 := by
  cases pc with
  | moveRear => cases h
  | _ => rfl

/-- More bytes are no harm. -/
theorem Pc.Knows.append {header : Header} (h : pc.Knows header bs) (m : List Byte) :
    pc.Knows header (bs ++ m) := by
  unfold Pc.Knows at h ⊢
  split
  · refine ⟨?_, ?_⟩
    · rw [List.length_append]
      exact h.1.trans (Nat.le_add_right _ _)
    · rw [List.take_append_of_le_length h.1]
      exact h.2
  · refine ⟨?_, h.2⟩
    rw [List.length_append]
    exact h.1.trans (Nat.le_add_right _ _)
  · exact h
  · exact h
  · trivial

/-- Who is not past its test of the group knows nothing of the bytes. -/
theorem Pc.Knows.of_checked {header : Header} (h : pc.Knows header bs) (hc : pc.checked = none)
    (bs' : List Byte) : pc.Knows header bs' := by
  cases pc with
  | packet | callback => cases hc
  | disconnect | wsaRecv => exact h
  | _ => trivial

theorem Pc.knows_after (header : Header) (bs : List Byte) (g : GroupID) :
    (after g).Knows header bs := by
  unfold after
  split <;> trivial

/-- **Where the bytes are** that have arrived: handed over, in the packet
callback that runs, in the ring, or behind its rear. -/
structure Flow (t : Stream) (f : ℕ) (bs tail : List Byte) : Prop where
  ring : Held t.world.shared.recvQ f bs tail
  moving : t.world.total Pc.moving = tail.length
  knows : ∀ pc ∈ t.world.threads, pc.Knows t.world.shared.header bs
  posted : ∀ bufs, t.world.shared.posted = some bufs →
    Within t.world.shared.recvQ bufs ∧ GoesOn bufs
  enough : t.world.total Pc.left ≤ bs.length
  fresh : t.world.total Pc.calling = 0 → t.reading = []
  parsed : (packets t.world.shared).parse t.arrived =
    (t.handed ++ List.replicate (t.world.total Pc.calling)
        (t.reading ++ bs.take (t.world.total Pc.left)) ++
      ((packets t.world.shared).parse (bs.drop (t.world.total Pc.left) ++ tail)).1,
      ((packets t.world.shared).parse (bs.drop (t.world.total Pc.left) ++ tail)).2)

/-- The stream before a violation, and after one. -/
structure Streams (t : Stream) : Prop where
  single : Single t.world
  posting : Posting t.world
  flow : t.world.shared.violated = false → ∃ f bs tail, Flow t f bs tail
  closed : t.world.shared.violated = true →
    ((packets t.world.shared).parse t.arrived).2 = .closed ∧
      ((packets t.world.shared).parse t.arrived).1 <+: t.handed

/-! ## Quiet steps -/

/-- Does the step move bytes? -/
def Pc.Loud : Pc → Event → Prop
  | .idle, .complete _ => True
  | .moveRear _, _ | .packet _ _, _ | .callback _ _ _, _ => True
  | _, _ => False

/-- A step that moves no byte: the ring stays, and so does the thread's part
of the bytes. -/
structure Quiet (header : Header) (bs : List Byte) (s : Recv) (pc : Pc) (s' : Recv) (pc' : Pc) :
    Prop where
  recvQ : s'.recvQ = s.recvQ
  violated : s'.violated = s.violated
  moving : pc'.moving = pc.moving
  calling : pc'.calling = pc.calling
  left : pc'.left = pc.left
  knows : pc'.Knows header bs
  posted : ∀ bufs, s'.posted = some bufs → s.posted = some bufs ∨ pc = .wsaRecv bufs

theorem Pc.weights_after (g : GroupID) :
    (after g).moving = 0 ∧ (after g).calling = 0 ∧ (after g).left = 0 := by
  unfold after
  split <;> exact ⟨rfl, rfl, rfl⟩

/-- **Most steps move no byte.** -/
theorem Action.still {e : Event} (h : Action s pc e s' pc') (hloud : ¬ pc.Loud e)
    (hring : Held s.recvQ f bs tail) (hknows : pc.Knows s.header bs)
    (hsecond : ∀ direct, pc = .recvSecond direct →
      (getIndex s.recvQ.rear + direct) % BUFFER_SIZE = 0) :
    Quiet s.header bs s pc s' pc' ∧ ∀ t : Stream, t.record pc e = t := by
  have hafter {g : GroupID} {s' : Recv} (hq : s'.recvQ = s.recvQ) (hv : s'.violated = s.violated)
      (hp : s'.posted = s.posted) {pc : Pc} (hm : pc.moving = 0) (hc : pc.calling = 0)
      (hl : pc.left = 0) : Quiet s.header bs s pc s' (after g) := by
    obtain ⟨hm', hc', hl'⟩ := Pc.weights_after g
    exact ⟨hq, hv, hm'.trans hm.symm, hc'.trans hc.symm, hl'.trans hl.symm,
      Pc.knows_after _ _ _, fun bufs hbufs => .inl (hp ▸ hbufs)⟩
  cases h
  case complete | moveRear | refused | short | invalid | deliver | returned | threw | read =>
    exact absurd trivial hloud
  case disconnect => exact hknows.elim
  case otherGroup | noHeader => exact ⟨hafter rfl rfl rfl rfl rfl rfl, fun _ => rfl⟩
  case peek bytes hpeek =>
    have hle := le_size_of_peek hpeek
    rw [hring.holds.size_eq] at hle
    rw [hring.holds.peek_eq hle] at hpeek
    exact ⟨⟨rfl, rfl, rfl, rfl, rfl, ⟨hle, (Option.some.inj hpeek).symm⟩, fun _ => .inl⟩,
      fun _ => rfl⟩
  case recvOne =>
    refine ⟨⟨rfl, rfl, rfl, rfl, rfl, ?_, fun _ => .inl⟩, fun _ => rfl⟩
    intro b b' heq
    cases heq
  case recvSecond direct =>
    refine ⟨⟨rfl, rfl, rfl, rfl, rfl, ?_, fun _ => .inl⟩, fun _ => rfl⟩
    intro b b' heq
    obtain ⟨rfl, hb'⟩ := List.cons.inj heq
    obtain ⟨rfl, -⟩ := List.cons.inj hb'
    exact hsecond direct rfl
  case wsaRecv bufs =>
    refine ⟨⟨rfl, rfl, rfl, rfl, rfl, trivial, fun bufs' heq => ?_⟩, fun _ => rfl⟩
    exact .inr (congrArg Pc.wsaRecv (Option.some.inj heq))
  case ended =>
    exact ⟨⟨rfl, rfl, rfl, rfl, rfl, trivial, nofun⟩, fun _ => rfl⟩
  all_goals exact ⟨⟨rfl, rfl, rfl, rfl, rfl, trivial, fun _ => .inl⟩, fun _ => rfl⟩

theorem packets_congr (hkey : s'.staticKey = s.staticKey) (hmax : s'.maxPacketLen = s.maxPacketLen) :
    packets s' = packets s := by
  unfold packets header
  rw [hkey, hmax]

theorem Flow.still (h : Flow t f bs tail) (hposting : Posting t.world)
    (hpc : t.world.threads[e.1]? = some pc) (ht : t'.world.threads = t.world.threads.set e.1 pc')
    (hkey : t'.world.shared.staticKey = t.world.shared.staticKey)
    (hmax : t'.world.shared.maxPacketLen = t.world.shared.maxPacketLen)
    (hq : Quiet t.world.shared.header bs t.world.shared pc t'.world.shared pc')
    (heq : t' = { t with world := t'.world }) : Flow t' f bs tail := by
  have hheader : t'.world.shared.header = t.world.shared.header := by rw [header, header, hkey]
  have hpackets := packets_congr hkey hmax
  have hmoving : t'.world.total Pc.moving = t.world.total Pc.moving := by
    have := Pool.total_step Pc.moving hpc ht
    have := hq.moving
    omega
  have hcalling : t'.world.total Pc.calling = t.world.total Pc.calling := by
    have := Pool.total_step Pc.calling hpc ht
    have := hq.calling
    omega
  have hleft : t'.world.total Pc.left = t.world.total Pc.left := by
    have := Pool.total_step Pc.left hpc ht
    have := hq.left
    omega
  have hreading : t'.reading = t.reading := by rw [heq]
  have harrived : t'.arrived = t.arrived := by rw [heq]
  have hhanded : t'.handed = t.handed := by rw [heq]
  refine ⟨?_, hmoving.trans h.moving, ?_, fun bufs hbufs => ?_, ?_, fun hz => ?_, ?_⟩
  · rw [hq.recvQ]
    exact h.ring
  · rw [hheader]
    exact Pool.forall_threads ht h.knows hq.knows
  · rw [hq.recvQ]
    rcases hq.posted bufs hbufs with hold | rfl
    · exact h.posted bufs hold
    · have hmem := List.mem_of_getElem? hpc
      exact ⟨hposting.posts _ hmem, h.knows _ hmem⟩
  · rw [hleft]
    exact h.enough
  · rw [hreading]
    exact h.fresh (hcalling ▸ hz)
  · rw [hpackets, hcalling, hleft, hreading, harrived, hhanded]
    exact h.parsed

/-! ## The worker -/

/-- A receive completes. -/
theorem next_complete {data : List Byte} (h : next s .idle (.complete data) = some (s', pc')) :
    ∃ bufs buffer, s.posted = some bufs ∧ data.length ≤ total bufs ∧
      scatter s.recvQ.buffer bufs data = some buffer ∧ pc' = .moveRear data.length ∧
      s' = { s with recvQ := { s.recvQ with buffer := buffer }, posted := none } := by
  simp only [next, start] at h
  cases hposted : s.posted with
  | none => simp [hposted] at h
  | some bufs =>
    simp only [hposted] at h
    split at h
    · rename_i hfits
      obtain ⟨buffer, hscatter, heq⟩ := Option.map_eq_some_iff.1 h
      obtain ⟨rfl, rfl⟩ := Prod.mk.inj heq
      exact ⟨bufs, buffer, rfl, hfits.2, hscatter, rfl, rfl⟩
    · cases h

/-- Nothing is behind the rear while a receive is in flight. -/
theorem Flow.tail_of_posted (h : Flow t f bs tail) (hhands : Hands t.world)
    (hposted : t.world.shared.posted.isSome) : tail = [] := by
  have hle := hhands.receive
  rw [inFlight, if_pos hposted] at hle
  have hmoving : t.world.total Pc.moving = 0 := Pool.total_eq_zero fun pc hpc =>
    Pc.moving_of_works (Pool.eq_zero_of_total (by omega) hpc)
  exact List.length_eq_zero_iff.1 (h.moving.symm.trans hmoving)

/-- **A receive is written behind the rear.** -/
theorem Flow.complete {data : List Byte} (h : Flow t f bs tail) (hhands : Hands t.world)
    (hpc : t.world.threads[e.1]? = some .idle)
    (hnext : next t.world.shared .idle (.complete data) = some (t'.world.shared, pc'))
    (ht : t'.world.threads = t.world.threads.set e.1 pc')
    (heq : t' = { t with arrived := t.arrived ++ data, world := t'.world }) :
    Flow t' f bs data := by
  obtain ⟨bufs, buffer, hposted, hfits, hscatter, rfl, hs⟩ := next_complete hnext
  obtain rfl := h.tail_of_posted hhands (by rw [hposted]; rfl)
  obtain ⟨hwithin, hgoes⟩ := h.posted bufs hposted
  have hcalling : t'.world.total Pc.calling = t.world.total Pc.calling :=
    Pool.total_step Pc.calling hpc ht
  have hleft : t'.world.total Pc.left = t.world.total Pc.left :=
    Pool.total_step Pc.left hpc ht
  have hmoving : t'.world.total Pc.moving = t.world.total Pc.moving + data.length :=
    Pool.total_step Pc.moving hpc ht
  have harrived : t'.arrived = t.arrived ++ data := by rw [heq]
  have hreading : t'.reading = t.reading := by rw [heq]
  have hhanded : t'.handed = t.handed := by rw [heq]
  have hzero := h.moving
  have hpackets : packets t'.world.shared = packets t.world.shared :=
    packets_congr (by rw [hs]) (by rw [hs])
  refine ⟨?_, ?_, ?_, fun bufs hbufs => ?_, ?_, fun hz => ?_, ?_⟩
  · rw [hs]
    exact hwithin.scatter hgoes h.ring.holds hfits hscatter
  · rw [hmoving, hzero, List.length_nil, Nat.zero_add]
  · rw [show t'.world.shared.header = t.world.shared.header by rw [hs]; rfl]
    exact Pool.forall_threads ht h.knows trivial
  · rw [hs] at hbufs
    cases hbufs
  · rw [hleft]
    exact h.enough
  · rw [hreading]
    exact h.fresh (hcalling ▸ hz)
  · have hparsed := h.parsed
    rw [List.append_nil] at hparsed
    rw [hpackets, hcalling, hleft, hreading, harrived, hhanded]
    exact parse_append hparsed data

/-- **The rear is moved** behind what was written. -/
theorem Flow.moveRear {n : ℕ} (h : Flow t f bs tail) (hhands : Hands t.world)
    (hpc : t.world.threads[e.1]? = some (.moveRear n))
    (hs : t'.world.shared = { t.world.shared with recvQ := t.world.shared.recvQ.moveRear n })
    (ht : t'.world.threads = t.world.threads.set e.1 .execGroup)
    (heq : t' = { t with world := t'.world }) : Flow t' f (bs ++ tail) [] := by
  have hmem := List.mem_of_getElem? hpc
  have hn : n = tail.length := by
    have htotal : t.world.total Pc.moving = (Pc.moveRear n).moving :=
      Pool.total_of_others hpc fun j q hj hq =>
        Pc.moving_of_works (Pool.eq_zero_of_other (f := Pc.works)
          (by have := hhands.receive; simp only [Pc.works]; omega) hj hpc hq)
    exact htotal.symm.trans h.moving
  subst hn
  have hcalling : t'.world.total Pc.calling = t.world.total Pc.calling :=
    Pool.total_step Pc.calling hpc ht
  have hleft : t'.world.total Pc.left = t.world.total Pc.left :=
    Pool.total_step Pc.left hpc ht
  have hmoving := Pool.total_step Pc.moving hpc ht
  have hold := h.moving
  have henough := h.enough
  have hreading : t'.reading = t.reading := by rw [heq]
  have harrived : t'.arrived = t.arrived := by rw [heq]
  have hhanded : t'.handed = t.handed := by rw [heq]
  have hpackets : packets t'.world.shared = packets t.world.shared :=
    packets_congr (by rw [hs]) (by rw [hs])
  refine ⟨?_, ?_, ?_, fun bufs hbufs => ?_, ?_, fun hz => ?_, ?_⟩
  · rw [hs]
    exact h.ring.moveRear
  · simp only [Pc.moving] at hmoving
    rw [List.length_nil]
    omega
  · rw [show t'.world.shared.header = t.world.shared.header by rw [hs]; rfl]
    exact Pool.forall_threads ht (fun q hq => (h.knows q hq).append tail) trivial
  · rw [hs] at hbufs
    rw [hhands.posted hmem (by simp [Pc.works])] at hbufs
    cases hbufs
  · rw [hleft, List.length_append]
    omega
  · rw [hreading]
    exact h.fresh (hcalling ▸ hz)
  · rw [hpackets, hcalling, hleft, hreading, harrived, hhanded, List.append_nil,
      List.drop_append_of_le_length henough, List.take_append_of_le_length henough]
    exact h.parsed

/-! ## The handler -/

/-- While one handler is past its test of the group, no other is. -/
theorem Single.others {i j : ℕ} {q : Pc} (h : Single w) (hpc : w.threads[i]? = some pc)
    (hchecked : pc.checked ≠ none) (hij : i ≠ j) (hq : w.threads[j]? = some q) :
    q.checked = none :=
  (h.alone i j pc q hij hpc hq).resolve_left hchecked

/-- What the one handler has in hand is all that is in hand. -/
theorem Single.totals {i : ℕ} (h : Single w) (hpc : w.threads[i]? = some pc)
    (hchecked : pc.checked ≠ none) :
    w.total Pc.calling = pc.calling ∧ w.total Pc.left = pc.left :=
  ⟨Pool.total_of_others hpc fun _ _ hij hq =>
      Pc.calling_of_checked (h.others hpc hchecked hij hq),
    Pool.total_of_others hpc fun _ _ hij hq => Pc.left_of_checked (h.others hpc hchecked hij hq)⟩

/-- **What a step of the one handler has to keep.** -/
theorem Flow.handler {f' : ℕ} {bs' : List Byte} (h : Flow t f bs tail) (hsingle : Single t.world)
    (hpc : t.world.threads[e.1]? = some pc) (hchecked : pc.checked ≠ none)
    (ht : t'.world.threads = t.world.threads.set e.1 pc')
    (hkey : t'.world.shared.staticKey = t.world.shared.staticKey)
    (hmax : t'.world.shared.maxPacketLen = t.world.shared.maxPacketLen)
    (hposted : t'.world.shared.posted = t.world.shared.posted)
    (hring : Held t'.world.shared.recvQ f' bs' tail) (hend : f' + bs'.length = f + bs.length)
    (hle : bs'.length ≤ bs.length) (hmoving : pc'.moving = pc.moving)
    (hknows : pc'.Knows t.world.shared.header bs') (henough : pc'.left ≤ bs'.length)
    (hfresh : pc'.calling = 0 → t'.reading = [])
    (hparsed : (packets t.world.shared).parse t'.arrived =
      (t'.handed ++ List.replicate pc'.calling (t'.reading ++ bs'.take pc'.left) ++
        ((packets t.world.shared).parse (bs'.drop pc'.left ++ tail)).1,
        ((packets t.world.shared).parse (bs'.drop pc'.left ++ tail)).2)) : Flow t' f' bs' tail := by
  have hothers {j : ℕ} {q : Pc} (hij : e.1 ≠ j) (hq : t.world.threads[j]? = some q) :
      q.checked = none := hsingle.others hpc hchecked hij hq
  obtain ⟨hlt, -⟩ := List.getElem?_eq_some_iff.1 hpc
  have hpc' : t'.world.threads[e.1]? = some pc' := by rw [ht, List.getElem?_set_self hlt]
  have htotal {weight : Pc → ℕ} (hw : ∀ q : Pc, q.checked = none → weight q = 0) :
      t'.world.total weight = weight pc' :=
    Pool.total_of_others hpc' fun j q hij hq => by
      rw [ht, List.getElem?_set_ne hij] at hq
      exact hw q (hothers hij hq)
  have hcalling := htotal fun _ => Pc.calling_of_checked
  have hleft := htotal fun _ => Pc.left_of_checked
  have hstep := Pool.total_step Pc.moving hpc ht
  have hold := h.moving
  refine ⟨hring, by omega, ?_, fun bufs hbufs => ?_, ?_, ?_, ?_⟩
  · rw [show t'.world.shared.header = t.world.shared.header by rw [header, header, hkey]]
    exact Pool.forall_threads_of_others ht (fun j q hij hq =>
      (h.knows q (List.mem_of_getElem? hq)).of_checked (hothers hij hq) bs') hknows
  · obtain ⟨hwithin, hgoes⟩ := h.posted bufs (hposted ▸ hbufs)
    exact ⟨hwithin.take h.ring hring hend hle, hgoes⟩
  · rw [hleft]
    exact henough
  · rw [hcalling]
    exact hfresh
  · rw [packets_congr hkey hmax, hcalling, hleft]
    exact hparsed

/-- **A packet is handed over** when it is the next one of the stream. -/
theorem Flow.deliver {g : GroupID} {bytes x : List Byte} {reader : Reader} {n : ℕ}
    {recvQ : CRingBuffer} (h : Flow t f bs tail) (hsingle : Single t.world)
    (hpc : t.world.threads[e.1]? = some (.packet g bytes))
    (hnext : (packets t.world.shared).next bs = .item x n) (hn : n ≤ bs.length)
    (hsize : n = t.world.shared.header.size + x.length)
    (hs : t'.world.shared =
      { t.world.shared with recvQ := recvQ, calls := t.world.shared.calls + 1 })
    (hring : Held recvQ (f + t.world.shared.header.size) (x ++ bs.drop n) tail)
    (ht : t'.world.threads = t.world.threads.set e.1 (.callback g reader x.length))
    (hexact : reader.Exact x.length) (heq : t' = { t with world := t'.world }) :
    Flow t' (f + t.world.shared.header.size) (x ++ bs.drop n) tail := by
  have hchecked : (Pc.packet g bytes).checked ≠ none := nofun
  obtain ⟨hcalling, hleft⟩ := hsingle.totals hpc hchecked
  have hreading : t'.reading = t.reading := by rw [heq]
  have harrived : t'.arrived = t.arrived := by rw [heq]
  have hhanded : t'.handed = t.handed := by rw [heq]
  have hlen : (x ++ bs.drop n).length = x.length + (bs.length - n) := by
    rw [List.length_append, List.length_drop]
  refine h.handler hsingle hpc hchecked ht (by rw [hs]) (by rw [hs]) (by rw [hs])
    (by rw [hs]; exact hring) (by omega) (by omega) rfl ⟨by omega, hexact⟩
    (show x.length ≤ _ by omega) nofun ?_
  have hparsed := h.parsed
  rw [hcalling, hleft] at hparsed
  simp only [Pc.calling, Pc.left, List.replicate_zero, List.append_nil, List.drop_zero]
    at hparsed
  rw [parse_item ((packets t.world.shared).item_append tail hnext),
    List.drop_append_of_le_length hn] at hparsed
  rw [harrived, hhanded, hreading, h.fresh hcalling]
  simp only [Pc.calling, Pc.left, List.replicate_one, List.nil_append, List.take_left,
    List.drop_left, List.append_assoc, List.singleton_append]
  exact hparsed

/-- The packet callback reads. -/
theorem Flow.read {g : GroupID} {n left m : ℕ} {k : List Byte → Reader} {bytes : List Byte}
    {recvQ : CRingBuffer} (h : Flow t f bs tail) (hsingle : Single t.world)
    (hpc : t.world.threads[e.1]? = some (.callback g (.read n k) left))
    (hpeek : t.world.shared.recvQ.peek n = some bytes)
    (hdequeue : t.world.shared.recvQ.dequeue n = some (m, recvQ))
    (hs : t'.world.shared = { t.world.shared with recvQ := recvQ })
    (ht : t'.world.threads = t.world.threads.set e.1 (.callback g (k bytes) (left - n)))
    (heq : t' = { t with reading := t.reading ++ bytes, world := t'.world }) :
    Flow t' (f + n) (bs.drop n) tail := by
  have hchecked : (Pc.callback g (.read n k) left).checked ≠ none := nofun
  obtain ⟨hcalling, hleft⟩ := hsingle.totals hpc hchecked
  obtain ⟨henough, hn, hexact⟩ := h.knows _ (List.mem_of_getElem? hpc)
  have hreading : t'.reading = t.reading ++ bytes := by rw [heq]
  have harrived : t'.arrived = t.arrived := by rw [heq]
  have hhanded : t'.handed = t.handed := by rw [heq]
  rw [h.ring.holds.peek_eq (by omega)] at hpeek
  obtain rfl := Option.some.inj hpeek
  have hlen : (bs.drop n).length = bs.length - n := List.length_drop
  have htake : (bs.take n).length = n := by
    rw [List.length_take]
    omega
  refine h.handler hsingle hpc hchecked ht (by rw [hs]) (by rw [hs]) (by rw [hs])
    (by rw [hs]; exact h.ring.dequeue (by omega) hdequeue) (by omega) (by omega) rfl
    ⟨by omega, hexact _ htake⟩ (show left - n ≤ _ by omega) nofun ?_
  have hparsed := h.parsed
  rw [hcalling, hleft] at hparsed
  simp only [Pc.calling, Pc.left] at hparsed ⊢
  rw [harrived, hhanded, hreading, List.append_assoc t.reading, ← List.take_add, List.drop_drop,
    Nat.add_sub_cancel' hn]
  exact hparsed

/-- The packet callback returns, and has read its packet. -/
theorem Flow.returned {g : GroupID} {left : ℕ} (h : Flow t f bs tail) (hsingle : Single t.world)
    (hpc : t.world.threads[e.1]? = some (.callback g .done left))
    (hs : t'.world.shared = t.world.shared)
    (ht : t'.world.threads = t.world.threads.set e.1 (.loop g))
    (heq : t' = { t with reading := [], handed := t.handed ++ [t.reading], world := t'.world }) :
    Flow t' f bs tail := by
  have hchecked : (Pc.callback g .done left).checked ≠ none := nofun
  obtain ⟨hcalling, hleft⟩ := hsingle.totals hpc hchecked
  obtain ⟨-, rfl⟩ := h.knows _ (List.mem_of_getElem? hpc)
  have hreading : t'.reading = [] := by rw [heq]
  have harrived : t'.arrived = t.arrived := by rw [heq]
  have hhanded : t'.handed = t.handed ++ [t.reading] := by rw [heq]
  refine h.handler hsingle hpc hchecked ht (by rw [hs]) (by rw [hs]) (by rw [hs])
    (by rw [hs]; exact h.ring) rfl le_rfl rfl trivial (Nat.zero_le _) (fun _ => hreading) ?_
  have hparsed := h.parsed
  rw [hcalling, hleft] at hparsed
  rw [harrived, hhanded]
  simp only [Pc.calling, Pc.left, List.replicate_one, List.replicate_zero, List.take_zero,
    List.append_nil] at hparsed ⊢
  exact hparsed

end Recv

end NetLib
