import NetLib.Receive.RoundTrip
import NetLib.Recv.Flow
import NetLib.Recv.Stranded
/-!
# The stream of a session that moves between groups

What the handlers hand to the packet callbacks, one after the other, is what
the reference parser makes of the bytes that have arrived, however the
receives, the jobs and the moves fall: as long as nobody moves the session
past a handler, no receive is posted in the wrong place, and the packet
callbacks read their packets.
-/

namespace NetLib

open CRingBuffer Framing

namespace Recv

variable {t t' : Stream} {w w' : World} {s s' : Recv} {pc pc' : Pc} {e : ℕ × Event}
variable {f : ℕ} {bs tail : List Byte}

/-! ## Orderly steps -/

/-- A session is not moved past a handler, unless to a group that has nothing
to start another one with; the second buffer of a receive begins where the
first one ends; and a packet callback reads its packet. -/
structure Orderly (w : World) (e : ℕ × Event) : Prop where
  yields : Yields w e
  second : ∀ direct, w.threads[e.1]? = some (.recvSecond direct) →
    (getIndex w.shared.recvQ.rear + direct) % BUFFER_SIZE = 0
  exact : ∀ g bytes reader, w.threads[e.1]? = some (.packet g bytes) → e.2 = .callback reader →
    reader.Exact (w.shared.header.len bytes)

/-- The history only grows. -/
theorem Stream.record_grows (t : Stream) (pc : Pc) (e : Event) :
    t.arrived <+: (t.record pc e).arrived ∧ t.handed <+: (t.record pc e).handed := by
  unfold Stream.record
  split
  · exact ⟨List.prefix_append _ _, List.prefix_rfl⟩
  · split <;> exact ⟨List.prefix_rfl, List.prefix_rfl⟩
  · exact ⟨List.prefix_rfl, List.prefix_append _ _⟩
  · exact ⟨List.prefix_rfl, List.prefix_rfl⟩
  · exact ⟨List.prefix_rfl, List.prefix_rfl⟩

/-- How a step goes on with the stream, if no violation was found before. -/
def Onward (t : Stream) : Prop :=
  if t.world.shared.violated then
    ((packets t.world.shared).parse t.arrived).2 = .closed ∧
      ((packets t.world.shared).parse t.arrived).1 <+: t.handed
  else ∃ f bs tail, Flow t f bs tail

theorem Onward.of_flow (h : Flow t f bs tail) (hv : t.world.shared.violated = false) :
    Onward t := by
  unfold Onward
  rw [hv, if_neg Bool.false_ne_true]
  exact ⟨f, bs, tail, h⟩

/-- **What `RecvHandler` does with the packet at the front** keeps the stream,
or ends it where it is bad. -/
theorem Flow.packet {g : GroupID} {bytes : List Byte} {reader : Reader} (h : Flow t f bs tail)
    (hsingle : Single t.world) (hposting : Posting t.world)
    (hv : t.world.shared.violated = false)
    (hpc : t.world.threads[e.1]? = some (.packet g bytes)) (he : e.2 = .callback reader)
    (hnext : next t.world.shared (.packet g bytes) e.2 = some (t'.world.shared, pc'))
    (ht : t'.world.threads = t.world.threads.set e.1 pc') (heq : t' = { t with world := t'.world })
    (hexact : reader.Exact (t.world.shared.header.len bytes)) : Onward t' := by
  obtain ⟨hsize, rfl⟩ := h.knows _ (List.mem_of_getElem? hpc)
  rw [he] at hnext
  have hgoes := packet_framing h.ring hsize hnext
  cases hframe : (packets t.world.shared).next bs with
  | more =>
    rw [hframe] at hgoes
    obtain ⟨hs, rfl⟩ := hgoes
    obtain ⟨hm, hc, hl⟩ := Pc.weights_after g
    refine .of_flow (h.still hposting hpc ht (by rw [hs]) (by rw [hs]) ?_ heq) (hs ▸ hv)
    exact ⟨by rw [hs], by rw [hs], hm, hc, hl, Pc.knows_after _ _ _, fun bufs hbufs =>
      .inl (hs ▸ hbufs)⟩
  | bad =>
    rw [hframe] at hgoes
    obtain ⟨⟨recvQ, hs⟩, -⟩ := hgoes
    obtain ⟨hcalling, hleft⟩ := hsingle.totals hpc nofun
    have hparsed := h.parsed
    rw [hcalling, hleft] at hparsed
    simp only [Pc.calling, Pc.left, List.replicate_zero, List.append_nil, List.drop_zero]
      at hparsed
    rw [parse_bad ((packets t.world.shared).bad_append tail hframe)] at hparsed
    have harrived : t'.arrived = t.arrived := by rw [heq]
    have hhanded : t'.handed = t.handed := by rw [heq]
    have hpackets : packets t'.world.shared = packets t.world.shared :=
      packets_congr (by rw [hs]; rfl) (by rw [hs]; rfl)
    unfold Onward
    rw [if_pos (show t'.world.shared.violated = true by rw [hs]; rfl), hpackets, harrived,
      hhanded, hparsed, List.append_nil]
    exact ⟨rfl, List.prefix_rfl⟩
  | item x n =>
    rw [hframe] at hgoes
    obtain ⟨hn, hlen, rfl, recvQ, hs, hring⟩ := hgoes
    have hsize' := item_size hframe
    exact .of_flow (h.deliver hsingle hpc hframe hn hsize' hs hring ht (hlen ▸ hexact) heq)
      (by rw [hs]; exact hv)

/-- **The packet callback** reads its packet, and returns. -/
theorem Flow.callback {g : GroupID} {reader : Reader} {left : ℕ} (h : Flow t f bs tail)
    (hsingle : Single t.world) (hv : t.world.shared.violated = false)
    (hpc : t.world.threads[e.1]? = some (.callback g reader left))
    (hnext : next t.world.shared (.callback g reader left) e.2 = some (t'.world.shared, pc'))
    (ht : t'.world.threads = t.world.threads.set e.1 pc')
    (heq : t' = { t.record (.callback g reader left) e.2 with world := t'.world }) :
    Onward t' := by
  cases reader with
  | done =>
    obtain ⟨hs, rfl⟩ := Prod.mk.inj (Option.some.inj hnext)
    exact .of_flow (h.returned hsingle hpc hs.symm ht heq) (hs ▸ hv)
  | read n k =>
    obtain ⟨-, hn, -⟩ := h.knows _ (List.mem_of_getElem? hpc)
    simp only [next, nextHandler, Stream.record] at hnext heq
    rw [if_neg (by omega)] at hnext heq
    obtain ⟨bytes, hpeek, hnext⟩ := Option.bind_eq_some_iff.1 hnext
    obtain ⟨⟨m, recvQ⟩, hdequeue, hpair⟩ := Option.map_eq_some_iff.1 hnext
    obtain ⟨hs, rfl⟩ := Prod.mk.inj hpair
    rw [hpeek, Option.getD_some] at heq
    exact .of_flow (h.read hsingle hpc hpeek hdequeue hs.symm ht heq) (by rw [← hs]; exact hv)

/-- **Every orderly step keeps the stream.** -/
theorem Streams.step (h : Streams t) (hst : t.step e = some t') (horderly : Orderly t.world e) :
    Streams t' := by
  obtain ⟨pc, pc', hpc, hworld, hnext, ht, heq⟩ := Stream.step_eq_some hst
  have ha := next_action hnext
  obtain ⟨hkey, hmax, -⟩ := ha.ring
  have honward : Onward t' := by
    cases hv : t.world.shared.violated with
    | true =>
      -- a closed stream stays closed
      obtain ⟨hclosed, hprefix⟩ := h.closed hv
      have hv' : t'.world.shared.violated = true := by
        rcases ha.violated.2 with hsame | ⟨-, hv', -⟩
        · exact hsame.trans hv
        · exact hv'
      obtain ⟨⟨m, hm⟩, hhanded⟩ := t.record_grows pc e.2
      unfold Onward
      rw [if_pos hv', packets_congr hkey hmax, show t'.arrived = t.arrived ++ m by rw [heq, hm],
        parse_append_closed hclosed, show t'.handed = (t.record pc e.2).handed by rw [heq]]
      exact ⟨hclosed, hprefix.trans hhanded⟩
    | false =>
      obtain ⟨f, bs, tail, hflow⟩ := h.flow hv
      have hmem := List.mem_of_getElem? hpc
      by_cases hloud : pc.Loud e.2
      · cases pc with
        | idle =>
          cases he : e.2 with
          | complete data =>
            rw [he] at hnext heq
            obtain ⟨bufs, buffer, -, -, -, -, hs⟩ := next_complete hnext
            exact .of_flow (hflow.complete h.posting.hands hpc hnext ht heq) (by rw [hs]; exact hv)
          | _ =>
            rw [he] at hloud
            exact hloud.elim
        | moveRear n =>
          obtain ⟨hs, rfl⟩ := Prod.mk.inj (Option.some.inj hnext)
          exact .of_flow (hflow.moveRear h.posting.hands hpc hs.symm ht heq)
            (by rw [← hs]; exact hv)
        | packet g bytes =>
          cases he : e.2 with
          | callback reader =>
            exact hflow.packet h.single h.posting hv hpc he hnext ht (by rw [heq]; rfl)
              (horderly.exact g bytes reader hpc he)
          | _ =>
            rw [he] at hnext
            cases hnext
        | callback g reader left => exact hflow.callback h.single hv hpc hnext ht heq
        | _ => exact hloud.elim
      · obtain ⟨hquiet, hrecord⟩ := ha.still hloud hflow.ring (hflow.knows pc hmem)
          fun direct hdirect => horderly.second direct (hdirect ▸ hpc)
        rw [hrecord] at heq
        exact .of_flow (hflow.still h.posting hpc ht hkey hmax hquiet heq)
          (hquiet.violated.trans hv)
  refine ⟨h.single.step hworld horderly.yields, h.posting.step hworld, fun hv => ?_, fun hv => ?_⟩
  · unfold Onward at honward
    rwa [hv, if_neg Bool.false_ne_true] at honward
  · unfold Onward at honward
    rwa [if_pos hv] at honward

theorem Streams.initial (staticKey : Byte) (maxPacketLen : ℕ) (isHandled : Bool) (n : ℕ) :
    Streams (.initial staticKey maxPacketLen isHandled n) := by
  refine ⟨.initial _ _ _ _, .initial _ _ _ _, fun _ => ⟨0, [], [], ?_⟩, fun hv => by cases hv⟩
  have hzero (weight : Pc → ℕ) (hpost : weight .recvConnect = 0) (hidle : weight .idle = 0) :
      (Stream.initial staticKey maxPacketLen isHandled n).world.total weight = 0 := by
    refine Pool.total_eq_zero fun pc hpc => ?_
    rcases List.mem_cons.1 hpc with rfl | hpc
    · exact hpost
    · rw [List.eq_of_mem_replicate hpc]
      exact hidle
  refine ⟨?_, hzero _ rfl rfl, fun pc hpc => ?_, nofun, ?_, fun _ => rfl, ?_⟩
  · exact Holds.held ⟨rfl, rfl, by simp, fun i hi => absurd hi (Nat.not_lt_zero i)⟩
  · rcases List.mem_cons.1 hpc with rfl | hpc
    · trivial
    · rw [List.eq_of_mem_replicate hpc]
      trivial
  · rw [hzero Pc.left rfl rfl]
    exact Nat.zero_le _
  · rw [hzero Pc.calling rfl rfl, hzero Pc.left rfl rfl]
    rfl

/-- The packets a session with these settings is sent. -/
abbrev wirePackets (staticKey : Byte) (maxPacketLen : ℕ) : Framing Byte (List Byte) :=
  framing (if staticKey ≠ 0 then .NetHeader else .LANHeader) staticKey maxPacketLen

/-- What the runs keep, whatever is asked of their steps. -/
structure Settled (staticKey : Byte) (maxPacketLen : ℕ) (t : Stream) : Prop where
  packets : packets t.world.shared = wirePackets staticKey maxPacketLen
  open_ : t.world.shared.connect = true → t.world.shared.violated = false

theorem Settled.step {staticKey : Byte} {maxPacketLen : ℕ} (h : Settled staticKey maxPacketLen t)
    (hst : t.step e = some t') : Settled staticKey maxPacketLen t' := by
  obtain ⟨pc, pc', -, -, hnext, -, -⟩ := Stream.step_eq_some hst
  have ha := next_action hnext
  obtain ⟨hkey, hmax, -⟩ := ha.ring
  refine ⟨(packets_congr hkey hmax).trans h.packets, fun hc => ?_⟩
  rcases ha.violated.2 with hsame | ⟨-, -, hclosed⟩
  · exact hsame.trans (h.open_ (ha.connect hc))
  · rw [hc] at hclosed
    cases hclosed

variable {staticKey : Byte} {maxPacketLen : ℕ} {isHandled : Bool} {n : ℕ}
variable {ok : Stream → ℕ × Event → Stream → Prop}

theorem Settled.of_runs (h : Runs Stream.step ok (.initial staticKey maxPacketLen isHandled n) t) :
    Settled staticKey maxPacketLen t :=
  h.invariant ⟨rfl, fun _ => rfl⟩ fun ih hst _ => ih.step hst

/-! ## A run through a group -/

/-- A run whose moves are orderly, and leave no packet behind. -/
abbrev Served (t : Stream) (e : ℕ × Event) (t' : Stream) : Prop :=
  Orderly t.world e ∧ Heeds t.world e t'.world

/-- Is the thread at a point of which nothing is asked? -/
def Pc.calm : Pc → Bool
  | .packet _ _ | .recvSecond _ => false
  | _ => true

/-- Is the step one of which nothing is asked? -/
def Stream.calm (t : Stream) (e : ℕ × Event) : Bool :=
  (t.world.threads[e.1]?).all Pc.calm && (!e.2.moves && stays t.world e)

theorem Served.of_calm (h : t.calm e = true) : Served t e t' := by
  simp only [Stream.calm, Bool.and_eq_true, Bool.not_eq_true'] at h
  obtain ⟨hcalm, hmoves, hstays⟩ := h
  refine ⟨⟨.of_moves hmoves, fun direct hpc => ?_, fun g bytes reader hpc _ => ?_⟩,
    .of_stays hstays⟩
  · rw [hpc] at hcalm
    cases hcalm
  · rw [hpc] at hcalm
    cases hcalm

theorem Served.callback {i : ℕ} {g : GroupID} {bytes : List Byte} {reader : Reader}
    (hpc : t.world.threads[i]? = some (.packet g bytes))
    (hexact : reader.Exact (t.world.shared.header.len bytes)) :
    Served t (i, .callback reader) t' := by
  refine ⟨⟨.of_moves rfl, fun direct hd => ?_, fun g' bytes' reader' hp he => ?_⟩,
    fun dst _ he => ?_, fun g' left hc => ?_⟩
  · cases hpc.symm.trans hd
  · obtain rfl := Event.callback.inj he
    obtain ⟨-, rfl⟩ := Pc.packet.inj (Option.some.inj (hpc.symm.trans hp))
    exact hexact
  · cases he
  · cases hpc.symm.trans hc

/-- A session with an empty ring may be moved while nobody handles it. -/
theorem Served.move {i : ℕ} {dst : GroupID} (hpc : t.world.threads[i]? = some .idle)
    (hchecked : ∀ pc ∈ t.world.threads, pc.checked = none)
    (hhandled : t'.world.shared.isHandled = false) (hempty : t'.world.shared.recvQ.size = 0) :
    Served t (i, .move dst) t' := by
  refine ⟨⟨fun dst' _ _ pc hmem g hg => ?_, fun direct hd => ?_, fun g bytes reader hp => ?_⟩,
    .of_little hpc hhandled (by rw [hempty]; exact Nat.two_pos.trans_le (header_size_pos _))⟩
  · rw [hchecked pc hmem] at hg
    cases hg
  · cases hpc.symm.trans hd
  · cases hpc.symm.trans hp

/-- A session that was just accepted, with three threads. -/
abbrev accepted : Stream := .initial 0 100 false 2

/-- The first receive is posted, and the session is moved to group 1. -/
def moveToGroup : List (ℕ × Event) := List.replicate 4 (0, .go) ++ [(0, .move 1)]

/-- A packet arrives, and thread 2 runs the group, up to the header. -/
def receiveInGroup : List (ℕ × Event) :=
  (1, .complete [1, 0, 9]) :: List.replicate 10 (1, .go) ++
    (2, .update 1) :: List.replicate 6 (2, .go)

/-- The packet callback reads the packet, and the group is done. -/
def callInGroup : List (ℕ × Event) :=
  (2, .callback (.read 1 fun _ => .done)) :: List.replicate 5 (2, .go)

theorem served_to_group : ∃ t, Runs Stream.step Served accepted t ∧
    exec Stream.step accepted moveToGroup = some t := by
  have hpost : (exec Stream.step accepted (List.replicate 4 (0, .go))).map (fun t =>
      t.world.threads) = some [.idle, .idle, .idle] := by rfl
  have hmove : (exec Stream.step accepted moveToGroup).map (fun t =>
      (t.world.shared.isHandled, t.world.shared.recvQ.size)) = some (false, 0) := by rfl
  obtain ⟨t, ht, hthreads⟩ := Option.map_eq_some_iff.1 hpost
  obtain ⟨u, hu, heq⟩ := Option.map_eq_some_iff.1 hmove
  obtain ⟨hhandled, hempty⟩ := Prod.mk.inj heq
  obtain ⟨t', ht', hlast⟩ := exec_append_iff.1 hu
  obtain rfl := Option.some.inj (ht.symm.trans ht')
  obtain ⟨u', hstep, hend⟩ := exec_cons_iff.1 hlast
  obtain rfl := Option.some.inj hend
  have hrun : Runs Stream.step (fun t e _ => t.calm e = true) accepted t :=
    runs_of_exec ht (by rfl)
  refine ⟨u', .tail (hrun.mono .of_calm) hstep (.move ?_ ?_ hhandled hempty), hu⟩
  · rw [hthreads]
    rfl
  · rw [hthreads]
    simp [Pc.checked]

/-- A packet received in group 1 is delivered there. -/
theorem served_through_group : ∃ t,
    exec Stream.step accepted (moveToGroup ++ receiveInGroup ++ callInGroup) = some t ∧
      Runs Stream.step Served accepted t ∧ t.arrived = [1, 0, 9] ∧
      t.world.shared.connect = true ∧ Quiescent t.world := by
  obtain ⟨t, hto, ht⟩ := served_to_group
  have hcalm : (exec Stream.step accepted moveToGroup).map (fun t =>
      execMeets Stream.step (fun t e _ => t.calm e = true) t receiveInGroup) = some true := by rfl
  have hreceive : (exec Stream.step accepted (moveToGroup ++ receiveInGroup)).map (fun t =>
      (t.world.threads[2]?, t.world.shared.staticKey)) = some (some (.packet 1 [1, 0]), 0) := by
    rfl
  have hcalm' : (exec Stream.step accepted
      (moveToGroup ++ receiveInGroup ++ callInGroup.take 1)).map (fun t =>
        execMeets Stream.step (fun t e _ => t.calm e = true) t (callInGroup.drop 1)) =
      some true := by rfl
  have hcall : (exec Stream.step accepted (moveToGroup ++ receiveInGroup ++ callInGroup)).map
      (fun t => (t.arrived, t.world.shared.connect, t.world.shared.jobs, t.world.threads)) =
      some ([1, 0, 9], true, Function.update (Function.update (fun _ => 0) 1 1) 1 0,
        [.idle, .idle, .idle]) := by rfl
  obtain ⟨v, hv, heq⟩ := Option.map_eq_some_iff.1 hcall
  simp only [Prod.mk.injEq] at heq
  obtain ⟨harrived, hconnect, hjobs, hthreads⟩ := heq
  -- up to the header
  obtain ⟨u, hu, hafter⟩ := exec_append_iff.1 hv
  obtain ⟨t', ht', hbefore⟩ := exec_append_iff.1 hu
  obtain rfl := Option.some.inj (ht.symm.trans ht')
  rw [ht, Option.map_some] at hcalm
  rw [hu, Option.map_some] at hreceive
  obtain ⟨hthread, hkey⟩ := Prod.mk.inj (Option.some.inj hreceive)
  have hreceived : Runs Stream.step (fun t e _ => t.calm e = true) t u :=
    runs_of_exec hbefore (Option.some.inj hcalm)
  -- the callback, and the rest
  obtain ⟨w, hstep, hend⟩ := exec_cons_iff.1 hafter
  have hcalled : exec Stream.step accepted (moveToGroup ++ receiveInGroup ++ callInGroup.take 1) =
      some w := exec_append hu (exec_cons_iff.2 ⟨w, hstep, rfl⟩)
  rw [hcalled, Option.map_some] at hcalm'
  have hreturned : Runs Stream.step (fun t e _ => t.calm e = true) w v :=
    runs_of_exec hend (Option.some.inj hcalm')
  have hexact : Served u (2, .callback (.read 1 fun _ => .done)) w := by
    refine .callback hthread ?_
    rw [show u.world.shared.header = .LANHeader by rw [header, hkey]; rfl]
    exact ⟨le_rfl, fun _ _ => rfl⟩
  refine ⟨v, hv, (hto.trans (hreceived.mono .of_calm)).trans
    (.head hstep hexact (hreturned.mono .of_calm)), harrived, hconnect, fun pc hpc => .inl ?_,
    fun g => ?_⟩
  · rw [hthreads] at hpc
    simpa using hpc
  · rw [hjobs]
    by_cases hg : g = 1
    · rw [hg, Function.update_self]
    · rw [Function.update_of_ne hg, Function.update_of_ne hg]

/-! ## Delivery -/

/-- **The stream is delivered in order.** In every orderly run, before any
violation, what the packet callbacks have been given, in whatever groups they
ran, is the first packets of what has arrived. Once a violation was found, the
stream is bad, and every packet before the bad one had been delivered. -/
theorem delivered_in_order
    (h : Runs Stream.step (fun t e _ => Orderly t.world e)
      (.initial staticKey maxPacketLen isHandled n) t) :
    (t.world.shared.violated = false →
      t.handed <+: ((wirePackets staticKey maxPacketLen).parse t.arrived).1) ∧
    (t.world.shared.violated = true →
      ((wirePackets staticKey maxPacketLen).parse t.arrived).2 = .closed ∧
        ((wirePackets staticKey maxPacketLen).parse t.arrived).1 <+: t.handed) := by
  have hstreams := h.invariant (Streams.initial staticKey maxPacketLen isHandled n)
    fun ih hst horderly => ih.step hst horderly
  rw [← (Settled.of_runs h).packets]
  refine ⟨fun hv => ?_, hstreams.closed⟩
  obtain ⟨f, bs, tail, hflow⟩ := hstreams.flow hv
  rw [hflow.parsed, List.append_assoc]
  exact List.prefix_append _ _

theorem delivered_in_order_group : ∃ t : Stream,
    exec Stream.step accepted (moveToGroup ++ receiveInGroup ++ callInGroup) = some t ∧
      t.arrived = [1, 0, 9] ∧ t.world.shared.violated = false ∧
      t.handed <+: ((wirePackets 0 100).parse [1, 0, 9]).1 := by
  obtain ⟨t, ht, hrun, harrived, hconnect, -⟩ := served_through_group
  have hv := (Settled.of_runs hrun).open_ hconnect
  exact ⟨t, ht, harrived, hv, harrived ▸ (delivered_in_order (hrun.mono And.left)).1 hv⟩

/-- A packet that is there is complete. -/
theorem Complete.of_item {x : List Byte} {k : ℕ} (h : Holds s.recvQ f bs)
    (hnext : (packets s).next bs = .item x k) : Complete s := by
  have hsize := item_size hnext
  obtain ⟨-, hle⟩ := (packets s).pos hnext
  refine ⟨bs.take s.header.size, h.peek_eq (by omega), ?_⟩
  rw [h.size_eq]
  unfold packets framing at hnext
  cases hheader : s.header with
  | NetHeader =>
    rw [hheader, Header.size] at hsize
    rw [hheader] at hnext
    dsimp only at hnext
    unfold netFrame at hnext
    rw [if_neg (by omega)] at hnext
    dsimp only at hnext
    rw [Header.refuses, Header.len, Header.size, NetHeader.ofBytes_take (by omega)]
    split at hnext
    · cases hnext
    · refine ⟨decide_eq_false ‹_›, ?_⟩
      split at hnext
      · cases hnext
      · omega
  | LANHeader =>
    rw [hheader, Header.size] at hsize
    rw [hheader] at hnext
    dsimp only at hnext
    unfold lanFrame at hnext
    rw [if_neg (by omega)] at hnext
    dsimp only at hnext
    rw [Header.refuses, Header.len, Header.size, LANHeader.ofBytes_take (by omega)]
    split at hnext
    · cases hnext
    · exact ⟨rfl, by omega⟩

/-- Nothing is in hand where nothing goes on. -/
theorem Quiescent.total_eq_zero (h : Quiescent w) {weight : Pc → ℕ} (hidle : weight .idle = 0)
    (hjob : ∀ g, weight (.handleJob g) = 0) : w.total weight = 0 := by
  refine Pool.total_eq_zero fun pc hpc => ?_
  rcases h.1 pc hpc with rfl | ⟨g, rfl⟩
  · exact hidle
  · exact hjob g

/-- A run of the stream is a run of the session. -/
theorem Stream.runs_world {ok' : World → ℕ × Event → World → Prop}
    (h : Runs Stream.step ok (.initial staticKey maxPacketLen isHandled n) t)
    (himp : ∀ {t e t'}, ok t e t' → ok' t.world e t'.world) :
    Runs Recv.step ok' (World.initial staticKey maxPacketLen isHandled n) t.world := by
  induction h with
  | refl => exact .refl
  | tail _ hst hok ih =>
    obtain ⟨-, -, -, hworld, -⟩ := Stream.step_eq_some hst
    exact .tail ih hworld (himp hok)

/-- **Everything is delivered** where nothing goes on in an open session: the
packet callbacks have been given every packet that has arrived. -/
theorem all_delivered (h : Runs Stream.step Served (.initial staticKey maxPacketLen isHandled n) t)
    (hopen : t.world.shared.connect = true) (hrest : Quiescent t.world) :
    t.handed = ((wirePackets staticKey maxPacketLen).parse t.arrived).1 := by
  have hstreams := h.invariant (Streams.initial staticKey maxPacketLen isHandled n)
    fun ih hst hok => ih.step hst hok.1
  have hsettled := Settled.of_runs h
  obtain ⟨f, bs, tail, hflow⟩ := hstreams.flow (hsettled.open_ hopen)
  have hcalling : t.world.total Pc.calling = 0 := hrest.total_eq_zero rfl fun _ => rfl
  have hleft : t.world.total Pc.left = 0 := hrest.total_eq_zero rfl fun _ => rfl
  have hmoving : t.world.total Pc.moving = 0 := hrest.total_eq_zero rfl fun _ => rfl
  obtain rfl : tail = [] := List.length_eq_zero_iff.1 (hflow.moving.symm.trans hmoving)
  have hparsed := hflow.parsed
  rw [hcalling, hleft] at hparsed
  simp only [List.replicate_zero, List.append_nil, List.drop_zero] at hparsed
  rw [← hsettled.packets, hparsed]
  -- no packet is left in the ring
  have hcomplete := nothing_stranded (Stream.runs_world h And.right) hopen hrest
  cases hnext : (packets t.world.shared).next bs with
  | more => rw [parse_more hnext, List.append_nil]
  | bad => rw [parse_bad hnext, List.append_nil]
  | item x k => exact absurd (.of_item hflow.ring.holds hnext) hcomplete

theorem all_delivered_group : ∃ t : Stream,
    exec Stream.step accepted (moveToGroup ++ receiveInGroup ++ callInGroup) = some t ∧
      t.arrived = [1, 0, 9] ∧ t.handed = ((wirePackets 0 100).parse [1, 0, 9]).1 := by
  obtain ⟨t, ht, hrun, harrived, hconnect, hrest⟩ := served_through_group
  exact ⟨t, ht, harrived, harrived ▸ all_delivered hrun hconnect hrest⟩

end Recv

end NetLib
