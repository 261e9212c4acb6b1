import NetLib.Recv.Posted
/-!
# The ring between a worker and a handler

While a worker has bytes of a receive behind the rear and has not moved the
rear yet, a group may decode and take packets at the front. `Held` is what
the ring is then: the bytes up to the rear, and the ones behind it. What a
handler does with the packet at the front is what the framing says of it,
and the bytes behind the rear are left alone.
-/

namespace NetLib

open CRingBuffer Framing

/-! ## The ring between two threads -/

namespace CRingBuffer

/-- The ring holds `bs`, and `tail` is written behind its rear. -/
structure Held (r : CRingBuffer) (f : ℕ) (bs tail : List Byte) : Prop where
  rear : r.rear = BitVec.ofNat 32 (f + bs.length)
  whole : Holds (r.moveRear tail.length) f (bs ++ tail)

variable {r r' : CRingBuffer} {f n : ℕ} {bs tail : List Byte}

theorem Held.holds (h : Held r f bs tail) : Holds r f bs where
  front := h.whole.front
  rear := h.rear
  lt := by
    have := h.whole.lt
    rw [List.length_append] at this
    omega
  reads := by
    have := h.whole.reads.take bs.length
    rwa [List.take_left' rfl] at this

theorem moveRear_zero (r : CRingBuffer) : r.moveRear 0 = r := by
  simp [moveRear]

theorem Holds.held (h : Holds r f bs) : Held r f bs [] where
  rear := h.rear
  whole := by
    rw [List.length_nil, moveRear_zero, List.append_nil]
    exact h

/-- `MoveRear` takes in what is written. -/
theorem Held.moveRear (h : Held r f bs tail) : Held (r.moveRear tail.length) f (bs ++ tail) [] :=
  h.whole.held

/-- `Dequeue` moves the front, and nothing else. -/
theorem eq_of_dequeue_le {m : ℕ} (h : r.dequeue n = some (m, r')) (hn : n ≤ r.size) :
    r' = { r with front := r.front + BitVec.ofNat 32 n } := by
  simp only [dequeue] at h
  split at h
  · obtain ⟨-, rfl⟩ := Prod.mk.inj (Option.some.inj h)
    obtain rfl : n = 0 := by omega
    simp
  · rw [if_neg (by omega)] at h
    exact (Prod.mk.inj (Option.some.inj h)).2.symm

theorem Holds.advance (h : Holds r f bs) (hn : n ≤ bs.length) :
    Holds { r with front := r.front + BitVec.ofNat 32 n } (f + n) (bs.drop n) := by
  obtain ⟨m, r', hdeq, hr'⟩ := h.dequeue_eq hn
  rwa [eq_of_dequeue_le hdeq (by rw [h.size_eq]; exact hn)] at hr'

theorem Held.dequeue {m : ℕ} (h : Held r f bs tail) (hn : n ≤ bs.length)
    (hdeq : r.dequeue n = some (m, r')) : Held r' (f + n) (bs.drop n) tail := by
  rw [eq_of_dequeue_le hdeq (by rw [h.holds.size_eq]; exact hn)]
  refine ⟨?_, ?_⟩
  · change r.rear = _
    rw [h.rear, List.length_drop]
    congr 1
    omega
  · have := h.whole.advance (n := n) (by rw [List.length_append]; omega)
    rwa [List.drop_append_of_le_length hn] at this

/-- **What `Decode` makes of the complete packet at the front**, and what
`ChecksumValid` says of it. -/
theorem Holds.decoded (h : Holds r f bs) (staticKey : Byte) {header : NetHeader}
    (hheader : NetHeader.ofBytes bs = header) (hn : 5 + header.len.toNat ≤ bs.length) :
    ∃ r' c payload, r.decode staticKey = some r' ∧
      decodeBytes staticKey header.randomKey ((bs.drop 4).take (header.len.toNat + 1)) =
        c :: payload ∧ payload.length = header.len.toNat ∧
      Holds r' f (bs.take 4 ++ c :: (payload ++ bs.drop (5 + header.len.toNat))) ∧
      r'.checksumValid = some (decide (checkSumOf payload = c)) := by
  have hlt := h.lt
  obtain ⟨r', hdec, hr'⟩ := h.decode_eq staticKey hheader (by omega) hn
  have hplen : (decodeBytes staticKey header.randomKey
      ((bs.drop 4).take (header.len.toNat + 1))).length = header.len.toNat + 1 := by
    rw [decodeBytes, Feedback.length_decode, List.length_take, List.length_drop]
    omega
  obtain ⟨c, payload, hplain⟩ := List.exists_cons_of_length_eq_add_one hplen
  rw [hplain, List.length_cons] at hplen
  rw [hplain, List.append_assoc, List.cons_append] at hr'
  have hfive : (bs.take 4 ++ [c]).length = 5 := by
    rw [List.length_append, List.length_take, List.length_singleton]
    omega
  have hpay : ((bs.take 4 ++ c :: (payload ++ bs.drop (5 + header.len.toNat))).drop 5).take
      header.len.toNat = payload := by
    rw [← List.singleton_append, ← List.append_assoc, List.drop_left' hfive,
      List.take_left' (by omega)]
  have hnew := NetHeader.ofBytes_checkSum (l := bs) (by omega) c
    (payload ++ bs.drop (5 + header.len.toNat))
  rw [hheader] at hnew
  have hvalid := hr'.checksumValid_eq hnew (by
    simp only [List.length_append, List.length_take, List.length_cons, List.length_drop]
    omega)
  dsimp only at hvalid
  rw [hpay] at hvalid
  exact ⟨r', c, payload, hdec, hplain, by omega, hr', hvalid⟩

/-- `Decode` leaves what is written behind the rear. -/
theorem Held.decoded (h : Held r f bs tail) (staticKey : Byte) {header : NetHeader}
    (hheader : NetHeader.ofBytes bs = header) (hn : 5 + header.len.toNat ≤ bs.length) :
    ∃ r' c payload, r.decode staticKey = some r' ∧
      decodeBytes staticKey header.randomKey ((bs.drop 4).take (header.len.toNat + 1)) =
        c :: payload ∧ payload.length = header.len.toNat ∧
      Held r' f (bs.take 4 ++ c :: (payload ++ bs.drop (5 + header.len.toNat))) tail ∧
      r'.checksumValid = some (decide (checkSumOf payload = c)) := by
  obtain ⟨r', c, payload, hdec, hplain, hlen, hr', hvalid⟩ := h.holds.decoded staticKey hheader hn
  refine ⟨r', c, payload, hdec, hplain, hlen, ⟨hr'.rear, ?_⟩, hvalid⟩
  have hheader' : NetHeader.ofBytes (bs ++ tail) = header := by
    rw [NetHeader.ofBytes_append (by omega), hheader]
  obtain ⟨whole, c', payload', hdec', hplain', -, hwhole, -⟩ :=
    h.whole.decoded staticKey hheader' (by rw [List.length_append]; omega)
  -- both are decoded from the same bytes at the same front
  rw [take_drop_append (by omega), hplain] at hplain'
  obtain ⟨rfl, rfl⟩ := List.cons.inj hplain'
  rw [List.take_append_of_le_length (by omega), List.drop_append_of_le_length hn] at hwhole
  have hpeek : r.peek 5 = some (bs.take 5) := h.holds.peek_eq (by omega)
  have hpeek' : (r.moveRear tail.length).peek 5 = some (bs.take 5) := by
    rw [h.whole.peek_eq (by rw [List.length_append]; omega),
      List.take_append_of_le_length (by omega)]
  unfold decode at hdec hdec'
  rw [show r.peek Header.NetHeader.size = _ from hpeek] at hdec
  rw [show (r.moveRear tail.length).peek Header.NetHeader.size = _ from hpeek'] at hdec'
  obtain rfl := Option.some.inj hdec
  obtain rfl := Option.some.inj hdec'
  rw [List.append_assoc, List.cons_append, List.append_assoc]
  exact hwhole

end CRingBuffer

namespace Recv

variable {r r' : CRingBuffer} {f f' : ℕ} {bs bs' tail tail' : List Byte} {bufs : List WSABUF}

/-- What the handler takes out of the ring leaves the posted buffers behind
its bytes. -/
theorem Within.take (hw : Within r bufs) (h : Held r f bs tail) (h' : Held r' f' bs' tail')
    (hend : f' + bs'.length = f + bs.length) (hle : bs'.length ≤ bs.length) : Within r' bufs := by
  refine hw.mono ?_ ?_
  · rw [h.rear, h'.rear, hend]
  · rw [h.holds.freeSize_eq, h'.holds.freeSize_eq]
    omega

/-- **A receive into buffers that go on where the ring ends** is written
behind its bytes, however long ago they were posted. -/
theorem Within.scatter {buffer : ℕ → Byte} {data : List Byte} (hw : Within r bufs)
    (hgoes : GoesOn bufs) (h : Holds r f bs) (hfits : data.length ≤ total bufs)
    (hscatter : scatter r.buffer bufs data = some buffer) :
    Held { r with buffer := buffer } f bs data := by
  obtain ⟨direct, hend, hbufs⟩ := hw
  rw [h.getIndex_rear, h.freeSize_eq] at *
  have hlt := h.lt
  have hheld (hd : data.length ≤ 8191 - bs.length) (hreads : Reads buffer f (bs ++ data)) :
      Held { r with buffer := buffer } f bs data := by
    refine ⟨h.rear, h.front, ?_, ?_, hreads⟩
    · simp only [moveRear, h.rear, List.length_append, ← Nat.add_assoc, BitVec.ofNat_add]
    · rw [List.length_append]
      omega
  have hone {bufs : List WSABUF} (hd : data.length ≤ 8191 - bs.length)
      (hle : data.length ≤ direct)
      (hs : CRingBuffer.scatter r.buffer (⟨(f + bs.length) % 8192, direct⟩ :: bufs) data =
        some buffer) : Held { r with buffer := buffer } f bs data := by
    rw [scatter_last hle hend] at hs
    obtain rfl := Option.some.inj hs
    exact hheld hd (h.reads.write data (by rw [BUFFER_SIZE] at hend; omega) (by omega))
  rcases hbufs with ⟨rfl, hle⟩ | ⟨len, hpos, rfl, hle⟩
  · simp only [total, List.map_cons, List.map_nil, List.sum_cons, List.sum_nil] at hfits
    exact hone (by omega) (by omega) hscatter
  · simp only [total, List.map_cons, List.map_nil, List.sum_cons, List.sum_nil] at hfits
    by_cases hshort : data.length ≤ direct
    · exact hone (by omega) hshort hscatter
    · have hreach : ((f + bs.length) % 8192 + direct) % 8192 = 0 := hgoes _ _ rfl
      rw [BUFFER_SIZE] at hend
      have htake : (data.take direct).length = direct := by
        rw [List.length_take]
        omega
      have hdrop : (data.drop direct).length = data.length - direct := List.length_drop
      have hlen : (bs ++ data.take direct).length = bs.length + direct := by
        rw [List.length_append, htake]
      have hfirst := h.reads.write (data.take direct) (by omega) (by omega)
      have hsecond := hfirst.write (data.drop direct) (by omega) (by omega)
      rw [List.append_assoc, List.take_append_drop, hlen,
        show (f + (bs.length + direct)) % 8192 = 0 by omega] at hsecond
      rw [scatter_more (not_le.1 hshort) (by rw [BUFFER_SIZE]; omega),
        scatter_last (by dsimp only; omega) (by rw [BUFFER_SIZE]; dsimp only; omega)] at hscatter
      obtain rfl := Option.some.inj hscatter
      exact hheld (by omega) hsecond

/-! ## The packet at the front -/

variable {s s' : Recv} {pc' : Pc}

/-- The packets of the session. -/
abbrev packets (s : Recv) : Framing Byte (List Byte) :=
  framing s.header s.staticKey s.maxPacketLen

/-- How `RecvHandler` goes on, for what the framing says of the ring. -/
def GoesOnWith (s : Recv) (g : GroupID) (reader : Reader) (f : ℕ) (bs tail : List Byte) (s' : Recv)
    (pc' : Pc) : Frame (List Byte) → Prop
  | .more => s' = s ∧ pc' = after g
  | .bad => (∃ recvQ, s' = { s with recvQ := recvQ }.violate) ∧ pc' = after g
  | .item x n => n ≤ bs.length ∧ x.length = s.header.len (bs.take s.header.size) ∧
      pc' = .callback g reader x.length ∧
        ∃ recvQ, s' = { s with recvQ := recvQ, calls := s.calls + 1 } ∧
          Held recvQ (f + s.header.size) (x ++ bs.drop n) tail

theorem deliver_held {g : GroupID} {reader : Reader} {n len : ℕ} {x : List Byte}
    (h : Held s.recvQ f bs tail) (hn : n = s.header.size + len) (hle : n ≤ bs.length)
    (hx : (bs.drop s.header.size).take len = x)
    (hdel : deliver s g len reader = some (s', pc')) :
    x.length = len ∧ pc' = .callback g reader x.length ∧
      ∃ recvQ, s' = { s with recvQ := recvQ, calls := s.calls + 1 } ∧
        Held recvQ (f + s.header.size) (x ++ bs.drop n) tail := by
  obtain ⟨⟨m, recvQ⟩, hdequeue, heq⟩ := Option.map_eq_some_iff.1 hdel
  obtain ⟨rfl, rfl⟩ := Prod.mk.inj heq
  have hlen : x.length = len := by
    rw [← hx, List.length_take, List.length_drop]
    omega
  refine ⟨hlen, by rw [hlen], recvQ, rfl, ?_⟩
  have := h.dequeue (by omega) hdequeue
  rwa [← List.take_append_drop len (bs.drop s.header.size), hx, List.drop_drop, ← hn] at this

theorem packet_lan {g : GroupID} {reader : Reader} (hheader : s.header = .LANHeader)
    (h : Held s.recvQ f bs tail) (hsize : 2 ≤ bs.length)
    (hp : packet s g (bs.take 2) reader = some (s', pc')) :
    GoesOnWith s g reader f bs tail s' pc' (lanFrame bs) := by
  have hlen : Header.LANHeader.len (bs.take 2) = (LANHeader.ofBytes bs).len.toNat := by
    rw [Header.len, LANHeader.ofBytes_take hsize]
  have htwo : s.header.size = 2 := by rw [hheader]; rfl
  unfold packet at hp
  rw [hheader] at hp
  dsimp only at hp
  rw [Header.refuses, if_neg Bool.false_ne_true, h.holds.size_eq, hlen, Header.size] at hp
  unfold lanFrame
  rw [if_neg (by omega)]
  dsimp only
  by_cases hshort : bs.length < 2 + (LANHeader.ofBytes bs).len.toNat
  · rw [if_pos (by omega)] at hp
    rw [if_pos hshort]
    obtain ⟨rfl, rfl⟩ := Prod.mk.inj (Option.some.inj hp)
    exact ⟨rfl, rfl⟩
  · rw [if_neg (by omega)] at hp
    rw [if_neg hshort]
    obtain ⟨hxlen, hdel⟩ := deliver_held h (n := 2 + (LANHeader.ofBytes bs).len.toNat)
      (by omega) (by omega) (by rw [htwo]) hp
    exact ⟨by omega, by rw [htwo, hheader, hxlen, hlen], hdel⟩

theorem packet_net {g : GroupID} {reader : Reader} (hheader : s.header = .NetHeader)
    (h : Held s.recvQ f bs tail) (hsize : 5 ≤ bs.length)
    (hp : packet s g (bs.take 5) reader = some (s', pc')) :
    GoesOnWith s g reader f bs tail s' pc' (netFrame s.staticKey s.maxPacketLen bs) := by
  have htake : NetHeader.ofBytes (bs.take 5) = NetHeader.ofBytes bs :=
    NetHeader.ofBytes_take hsize
  have hlen : Header.NetHeader.len (bs.take 5) = (NetHeader.ofBytes bs).len.toNat := by
    rw [Header.len, htake]
  have hfive : s.header.size = 5 := by rw [hheader]; rfl
  unfold packet at hp
  rw [hheader] at hp
  dsimp only at hp
  rw [Header.refuses, htake, h.holds.size_eq, hlen, Header.size] at hp
  unfold netFrame
  rw [if_neg (by omega)]
  dsimp only at hp ⊢
  generalize hhead : NetHeader.ofBytes bs = header at hp ⊢
  by_cases hbad : header.code ≠ dfPACKET_CODE ∨ s.maxPacketLen < header.len.toNat
  · rw [if_pos (decide_eq_true hbad)] at hp
    rw [if_pos hbad]
    obtain ⟨rfl, rfl⟩ := Prod.mk.inj (Option.some.inj hp)
    exact ⟨⟨s.recvQ, rfl⟩, rfl⟩
  rw [decide_eq_false hbad, if_neg Bool.false_ne_true] at hp
  rw [if_neg hbad]
  by_cases hshort : bs.length < 5 + header.len.toNat
  · rw [if_pos (by omega)] at hp
    rw [if_pos hshort]
    obtain ⟨rfl, rfl⟩ := Prod.mk.inj (Option.some.inj hp)
    exact ⟨rfl, rfl⟩
  rw [if_neg (by omega)] at hp
  rw [if_neg hshort]
  -- the packet is complete: it is decoded where it is
  obtain ⟨recvQ, c, payload, hdec, hplain, hplen, hheld, hvalid⟩ :=
    h.decoded s.staticKey hhead (by omega)
  rw [hdec, Option.bind_some, hvalid, Option.bind_some] at hp
  rw [hplain, List.headD_cons, List.tail_cons]
  by_cases hsum : checkSumOf payload = c
  · rw [if_pos (decide_eq_true hsum)] at hp
    rw [if_pos hsum.symm]
    have hfour : (bs.take 4 ++ [c]).length = 5 := by
      rw [List.length_append, List.length_take, List.length_singleton]
      omega
    have hdrop : (bs.take 4 ++ c :: (payload ++ bs.drop (5 + header.len.toNat))).drop 5 =
        payload ++ bs.drop (5 + header.len.toNat) := by
      rw [← List.singleton_append, ← List.append_assoc, List.drop_left' hfour]
    have htotal : (bs.take 4 ++ c :: (payload ++ bs.drop (5 + header.len.toNat))).length =
        bs.length := by
      simp only [List.length_append, List.length_take, List.length_cons, List.length_drop]
      omega
    have hsize' : ({ s with recvQ := recvQ } : Recv).header.size = 5 := hfive
    obtain ⟨-, hdel⟩ := deliver_held (n := 5 + header.len.toNat) (x := payload) hheld
      (by rw [hsize']) (by omega) (by rw [hsize', hdrop, List.take_left' hplen]) hp
    rw [hsize', ← List.drop_drop, hdrop, List.drop_left' hplen] at hdel
    refine ⟨by omega, ?_, ?_⟩
    · rw [hfive, hheader, hplen, hlen, hhead]
    · rw [hfive]
      exact hdel
  · rw [if_neg (by simpa using hsum)] at hp
    rw [if_neg fun heq => hsum heq.symm]
    obtain ⟨rfl, rfl⟩ := Prod.mk.inj (Option.some.inj hp)
    exact ⟨⟨recvQ, rfl⟩, rfl⟩

/-- **`RecvHandler` does with the packet at the front what the framing says
of it**, whatever a worker has written behind the rear. -/
theorem packet_framing {g : GroupID} {reader : Reader} (h : Held s.recvQ f bs tail)
    (hsize : s.header.size ≤ bs.length)
    (hp : packet s g (bs.take s.header.size) reader = some (s', pc')) :
    GoesOnWith s g reader f bs tail s' pc' ((packets s).next bs) := by
  unfold packets framing
  cases hheader : s.header with
  | NetHeader =>
    rw [hheader] at hsize hp
    exact packet_net hheader h hsize hp
  | LANHeader =>
    rw [hheader] at hsize hp
    exact packet_lan hheader h hsize hp

/-- A packet is its header and its payload. -/
theorem item_size {x : List Byte} {n : ℕ} (h : (packets s).next bs = .item x n) :
    n = s.header.size + x.length := by
  unfold packets framing at h
  cases hheader : s.header with
  | NetHeader =>
    rw [hheader] at h
    exact (netFrame_item h).2.2
  | LANHeader =>
    rw [hheader] at h
    exact (lanFrame_item h).2.2

end Recv

end NetLib
