import NetLib.Receive.Model
/-!
# Receiving a stream, however it is cut

The ring holds the undecided rest of the stream, and each receive reads on
from there. So a session is after any receives where the reference parser
of `Buffer/Protocol` is after the same bytes.
-/

namespace NetLib

open CRingBuffer Framing

/-- **A handler that reads its packet out of the ring reads its bytes.** -/
theorem Reader.run_exact {reader : Reader} {r : CRingBuffer} {f n : ℕ} {bs : List Byte}
    (h : Holds r f bs) (hn : n ≤ bs.length) (he : reader.Exact n) :
    ∃ r', reader.run r n = some (bs.take n, r', 0) ∧ Holds r' (f + n) (bs.drop n) := by
  induction reader generalizing r f n bs with
  | done =>
    obtain rfl : n = 0 := he
    exact ⟨r, rfl, h⟩
  | read m k ih =>
    obtain ⟨hm, hk⟩ := he
    obtain ⟨j, r', hdeq, hr'⟩ := h.dequeue_eq (n := m) (by omega)
    have hlen : (bs.take m).length = m := by
      rw [List.length_take]
      omega
    obtain ⟨r'', hrun, hr''⟩ := ih (bs.take m) hr' (n := n - m)
      (by rw [List.length_drop]; omega) (hk _ hlen)
    refine ⟨r'', ?_, ?_⟩
    · rw [run, if_neg (by omega), h.peek_eq (by omega), Option.bind_some, hdeq, Option.bind_some,
        hrun, Option.map_some, ← List.take_add, Nat.add_sub_cancel' hm]
    · rw [List.drop_drop, Nat.add_assoc, Nat.add_sub_cancel' hm] at hr''
      exact hr''

namespace Session

variable {onRecvPacket : Handler} {header : Header} {s s' : Session} {f : ℕ} {bs : List Byte}

/-- Every packet is read exactly. -/
def Exact (onRecvPacket : Handler) : Prop := ∀ calls n, (onRecvPacket calls n).Exact n

/-- The packets of the session. -/
abbrev packets (header : Header) (s : Session) : Framing Byte (List Byte) :=
  framing header s.staticKey s.maxPacketLen

/-- A session after it has read `xs`, with `rest` of the stream. -/
structure Read (s s' : Session) (xs : List (List Byte)) (rest : Rest Byte) : Prop where
  sessionId : s'.sessionId = s.sessionId
  groupId : s'.groupId = s.groupId
  isHandled : s'.isHandled = s.isHandled
  staticKey : s'.staticKey = s.staticKey
  maxPacketLen : s'.maxPacketLen = s.maxPacketLen
  refCount : s'.refCount = s.refCount
  posted : s'.posted = s.posted
  calls : s'.calls = s.calls ++ xs
  rest : match rest with
    | .pending r => s'.connect = s.connect ∧ ∃ f, Holds s'.recvQ f r
    | .closed => s'.connect = false

theorem deliver_eq (header : Header) (len : ℕ) (he : Exact onRecvPacket) (h : Holds s.recvQ f bs)
    (hlen : header.size + len ≤ bs.length) :
    ∃ r, deliver header onRecvPacket len s = some (.next { s with
        recvQ := r, calls := s.calls ++ [(bs.drop header.size).take len] }) ∧
      Holds r (f + (header.size + len)) (bs.drop (header.size + len)) := by
  obtain ⟨j, r, hdeq, hr⟩ := h.dequeue_eq (n := header.size) (by omega)
  obtain ⟨r', hrun, hr'⟩ := Reader.run_exact hr (n := len) (by rw [List.length_drop]; omega)
    (he s.calls len)
  refine ⟨r', ?_, ?_⟩
  · rw [deliver, hdeq, Option.bind_some, hrun, Option.bind_some, if_pos rfl]
  · rw [List.drop_drop, Nat.add_assoc] at hr'
    exact hr'

/-- What one turn does, for what the framing says of the ring. -/
def TurnsOn (header : Header) (onRecvPacket : Handler) (s : Session) (f : ℕ) (bs : List Byte) :
    Frame (List Byte) → Prop
  | .more => turn header onRecvPacket s = some (.stop s)
  | .bad => ∃ r, turn header onRecvPacket s = some (.stop { s with recvQ := r, connect := false })
  | .item x n => ∃ r, turn header onRecvPacket s =
      some (.next { s with recvQ := r, calls := s.calls ++ [x] }) ∧ Holds r (f + n) (bs.drop n)

theorem turn_short (hbase : s.groupId = BaseGroupID) (h : Holds s.recvQ f bs)
    (hlen : bs.length < header.size) : turn header onRecvPacket s = some (.stop s) := by
  rw [turn, if_neg (not_not.2 hbase), h.size_eq, if_pos hlen]

theorem turn_eq (hbase : s.groupId = BaseGroupID) (h : Holds s.recvQ f bs)
    (hlen : header.size ≤ bs.length) :
    turn header onRecvPacket s = packet header onRecvPacket s (bs.take header.size) := by
  rw [turn, if_neg (not_not.2 hbase), h.size_eq, if_neg (not_lt.2 hlen), h.peek_eq hlen,
    Option.bind_some]

/-- A packet that is accepted so far, and not complete. -/
theorem packet_incomplete (h : Holds s.recvQ f bs) {bytes : List Byte}
    (href : header.refuses s.maxPacketLen bytes = false)
    (hlen : bs.length < header.size + header.len bytes) :
    packet header onRecvPacket s bytes = some (.stop s) := by
  unfold packet
  rw [href, if_neg Bool.false_ne_true, h.size_eq]
  by_cases hshort : bs.length < header.len bytes
  · rw [if_pos hshort]
  · rw [if_neg hshort, if_pos (by omega)]

/-- **One turn reads one `LANHeader` packet**, or waits for it. -/
theorem turn_lan (hbase : s.groupId = BaseGroupID) (he : Exact onRecvPacket)
    (h : Holds s.recvQ f bs) : TurnsOn .LANHeader onRecvPacket s f bs (lanFrame bs) := by
  unfold lanFrame
  by_cases h2 : bs.length < 2
  · rw [if_pos h2]
    exact turn_short hbase h h2
  rw [if_neg h2]
  have hturn : turn .LANHeader onRecvPacket s = _ := turn_eq hbase h (not_lt.1 h2)
  have hlen : Header.LANHeader.len (bs.take 2) = (LANHeader.ofBytes bs).len.toNat := by
    rw [Header.len, LANHeader.ofBytes_take (by omega)]
  dsimp only
  rw [← hlen]
  by_cases hshort : bs.length < 2 + Header.LANHeader.len (bs.take 2)
  · rw [if_pos hshort]
    exact hturn.trans (packet_incomplete h rfl hshort)
  · rw [if_neg hshort]
    obtain ⟨r, hdel, hr⟩ := deliver_eq .LANHeader _ he h (not_lt.1 hshort)
    refine ⟨r, ?_, hr⟩
    rw [hturn, packet, Header.refuses, if_neg Bool.false_ne_true, h.size_eq]
    change (if bs.length < Header.LANHeader.len (bs.take 2) then _
      else if bs.length < Header.LANHeader.len (bs.take 2) + 2 then _ else _) = _
    rw [if_neg (by omega), if_neg (by omega)]
    exact hdel

/-- **One turn reads one `NetHeader` packet**, waits for it, or closes. -/
theorem turn_net (hbase : s.groupId = BaseGroupID) (he : Exact onRecvPacket)
    (hmax : s.maxPacketLen ≤ 8186) (h : Holds s.recvQ f bs) :
    TurnsOn .NetHeader onRecvPacket s f bs (netFrame s.staticKey s.maxPacketLen bs) := by
  unfold netFrame
  by_cases h5 : bs.length < 5
  · rw [if_pos h5]
    exact turn_short hbase h h5
  rw [if_neg h5]
  have hturn : turn .NetHeader onRecvPacket s = _ := turn_eq hbase h (not_lt.1 h5)
  have htake : NetHeader.ofBytes (bs.take 5) = NetHeader.ofBytes bs :=
    NetHeader.ofBytes_take (by omega)
  have hlen : Header.NetHeader.len (bs.take 5) = (NetHeader.ofBytes bs).len.toNat := by
    rw [Header.len, htake]
  have href : Header.NetHeader.refuses s.maxPacketLen (bs.take 5) =
      decide ((NetHeader.ofBytes bs).code ≠ dfPACKET_CODE ∨
        s.maxPacketLen < (NetHeader.ofBytes bs).len.toNat) := by
    rw [Header.refuses, htake]
  dsimp only
  generalize hh : NetHeader.ofBytes bs = header at hlen href ⊢
  by_cases hbad : header.code ≠ dfPACKET_CODE ∨ s.maxPacketLen < header.len.toNat
  · rw [if_pos hbad]
    refine ⟨s.recvQ, hturn.trans (if_pos ?_)⟩
    exact href.trans (decide_eq_true hbad)
  rw [if_neg hbad]
  rw [decide_eq_false hbad] at href
  by_cases hshort : bs.length < 5 + header.len.toNat
  · rw [if_pos hshort]
    exact hturn.trans (packet_incomplete h href (hlen ▸ hshort))
  rw [if_neg hshort]
  -- the packet is complete: decode, check, deliver
  obtain ⟨r, hdec, hr⟩ := h.decode_eq s.staticKey hh (by omega) (by omega)
  have hplen : (decodeBytes s.staticKey header.randomKey
      ((bs.drop 4).take (header.len.toNat + 1))).length = header.len.toNat + 1 := by
    rw [decodeBytes, Feedback.length_decode, List.length_take, List.length_drop]
    omega
  obtain ⟨c, payload, hplain⟩ : ∃ c payload, decodeBytes s.staticKey header.randomKey
      ((bs.drop 4).take (header.len.toNat + 1)) = c :: payload :=
    List.exists_cons_of_length_eq_add_one hplen
  rw [hplain, List.length_cons] at hplen
  rw [hplain, List.append_assoc, List.cons_append] at hr
  rw [hplain, List.headD_cons, List.tail_cons]
  have hheader : NetHeader.ofBytes
      (bs.take 4 ++ c :: (payload ++ bs.drop (5 + header.len.toNat))) =
        { header with checkSum := c } := by
    rw [NetHeader.ofBytes_checkSum (by omega), hh]
  have hfive : (bs.take 4 ++ [c]).length = 5 := by
    rw [List.length_append, List.length_take, List.length_singleton]
    omega
  have hdrop : (bs.take 4 ++ c :: (payload ++ bs.drop (5 + header.len.toNat))).drop 5 =
      payload ++ bs.drop (5 + header.len.toNat) := by
    rw [← List.singleton_append, ← List.append_assoc, List.drop_left' hfive]
  have hpay : ((bs.take 4 ++ c :: (payload ++ bs.drop (5 + header.len.toNat))).drop 5).take
      header.len.toNat = payload := by
    rw [hdrop, List.take_left' (by omega)]
  have htotal : (bs.take 4 ++ c :: (payload ++ bs.drop (5 + header.len.toNat))).length =
      bs.length := by
    simp only [List.length_append, List.length_take, List.length_cons, List.length_drop]
    omega
  have hvalid := hr.checksumValid_eq hheader (by dsimp only; omega)
  dsimp only at hvalid
  rw [hpay] at hvalid
  have hpacket : turn .NetHeader onRecvPacket s =
      if decide (checkSumOf payload = c) then
        deliver .NetHeader onRecvPacket header.len.toNat { s with recvQ := r }
      else some (.stop { s with recvQ := r }.close) := by
    rw [hturn, packet,
      show Header.NetHeader.refuses _ (bs.take Header.NetHeader.size) = _ from href,
      if_neg Bool.false_ne_true, h.size_eq, if_neg, if_neg]
    · rw [hdec, Option.bind_some, hvalid, Option.bind_some]
      rw [show Header.NetHeader.len (bs.take Header.NetHeader.size) = _ from hlen]
    · rw [show Header.NetHeader.len (bs.take Header.NetHeader.size) = _ from hlen, Header.size]
      omega
    · rw [show Header.NetHeader.len (bs.take Header.NetHeader.size) = _ from hlen]
      omega
  by_cases hsum : c = checkSumOf payload
  · rw [if_pos hsum]
    obtain ⟨r', hdel, hr'⟩ := deliver_eq .NetHeader header.len.toNat
      (s := { s with recvQ := r }) he hr (by rw [Header.size, htotal]; omega)
    refine ⟨r', ?_, ?_⟩
    · rw [hpacket, if_pos (decide_eq_true hsum.symm), hdel, Header.size, hpay]
    · rw [← List.drop_drop, Header.size, hdrop, List.drop_left' (by omega)] at hr'
      exact hr'
  · rw [if_neg hsum]
    refine ⟨r, ?_⟩
    rw [hpacket, if_neg (by simpa using fun heq => hsum heq.symm)]
    rfl

/-- **One turn follows the framing.** -/
theorem turn_spec (hbase : s.groupId = BaseGroupID) (he : Exact onRecvPacket)
    (hmax : header = .NetHeader → s.maxPacketLen ≤ 8186) (h : Holds s.recvQ f bs) :
    TurnsOn header onRecvPacket s f bs ((packets header s).next bs) := by
  cases header with
  | NetHeader => exact turn_net hbase he (hmax rfl) h
  | LANHeader => exact turn_lan hbase he h

/-- **`RecvHandler` parses what the ring holds**, and ends. -/
theorem recvHandler_spec (header : Header) (hbase : s.groupId = BaseGroupID)
    (he : Exact onRecvPacket)
    (hmax : header = .NetHeader → s.maxPacketLen ≤ 8186) (h : Holds s.recvQ f bs) {fuel : ℕ}
    (hfuel : bs.length < fuel) (loopCount : ℕ) :
    ∃ s', recvHandler header onRecvPacket fuel s loopCount = some s' ∧
      Read s s' ((packets header s).parse bs).1 ((packets header s).parse bs).2 := by
  induction fuel generalizing s f bs loopCount with
  | zero => exact absurd hfuel (Nat.not_lt_zero _)
  | succ fuel ih =>
    have hturn := turn_spec hbase he hmax h
    cases hn : (packets header s).next bs with
    | more =>
      rw [hn] at hturn
      rw [parse_more hn]
      refine ⟨{ s with recvCount := s.recvCount + loopCount }, ?_, rfl, rfl, rfl, rfl, rfl, rfl,
        rfl, (List.append_nil _).symm, rfl, f, h⟩
      rw [recvHandler, show turn header onRecvPacket s = _ from hturn, Option.bind_some]
    | bad =>
      rw [hn] at hturn
      obtain ⟨r, hturn⟩ := hturn
      rw [parse_bad hn]
      refine ⟨{ s with
        recvQ := r, connect := false, recvCount := s.recvCount + loopCount }, ?_, rfl, rfl, rfl,
        rfl, rfl, rfl, rfl, (List.append_nil _).symm, rfl⟩
      rw [recvHandler, hturn, Option.bind_some]
    | item x n =>
      rw [hn] at hturn
      obtain ⟨r, hturn, hr⟩ := hturn
      obtain ⟨hpos, hle⟩ := (packets header s).pos hn
      obtain ⟨s', hrec, hread⟩ := ih (s := { s with recvQ := r, calls := s.calls ++ [x] })
        hbase hmax hr (by rw [List.length_drop]; omega) (loopCount + 1)
      rw [parse_item hn]
      refine ⟨s', by rw [recvHandler, hturn, Option.bind_some]; exact hrec, ?_⟩
      refine { hread with calls := ?_ }
      rw [hread.calls, List.append_assoc, List.singleton_append]

/-! ## One receive -/

/-- The header of the session's packets. -/
def packetHeader (s : Session) : Header := if s.staticKey ≠ 0 then .NetHeader else .LANHeader

/-- **A session that has received what the parser has read**: open, with the
rest in its ring and a receive posted for all that is free, or closed. -/
structure Receiving (s₀ s : Session) (st : List (List Byte) × Rest Byte) : Prop where
  base : s.groupId = BaseGroupID
  unreleased : st.2 ≠ .closed → s.refCount < RELEASE_FLAG
  staticKey : s.staticKey = s₀.staticKey
  maxPacketLen : s.maxPacketLen = s₀.maxPacketLen
  calls : s.calls = st.1
  rest : match st.2 with
    | .pending r => s.connect = true ∧ (∃ f, Holds s.recvQ f r) ∧
        ∃ bufs, s.posted = some bufs ∧ s.recvQ.recvBufs = some bufs
    | .closed => s.connect = false ∧ s.posted = none

/-- `RecvNotIncrease` posts a receive, or gives the reference back. -/
theorem recvNotIncrease_spec {xs : List (List Byte)} {rest : Rest Byte} {s₀ : Session}
    (hbase : s.groupId = BaseGroupID) (hfew : s.refCount < RELEASE_FLAG)
    (hkey : s.staticKey = s₀.staticKey) (hmax : s.maxPacketLen = s₀.maxPacketLen)
    (hcalls : s.calls = xs)
    (hrest : match rest with
      | .pending r => s.connect = true ∧ ∃ f, Holds s.recvQ f r
      | .closed => s.connect = false)
    (hroom : ∀ r, rest = .pending r → r.length < 8191) :
    ∃ s', recvNotIncrease s = some s' ∧ Receiving s₀ s' (xs, rest) := by
  unfold recvNotIncrease
  rw [if_neg (not_le.2 hfew)]
  cases rest with
  | closed =>
    exact ⟨_, if_pos hrest, hbase, fun hne => absurd rfl hne, hkey, hmax, hcalls, hrest, rfl⟩
  | pending r =>
    obtain ⟨hconn, f, h⟩ := hrest
    obtain ⟨bufs, hbufs, hsum, -⟩ := h.recv
    have := hroom r rfl
    refine ⟨{ s with posted := some bufs }, ?_, hbase, fun _ => hfew, hkey, hmax, hcalls, hconn,
      ⟨f, h⟩, bufs, rfl, hbufs⟩
    rw [if_neg (by simp [hconn]), hbufs, Option.bind_some, if_pos (by omega)]

/-- **One receive feeds the parser.** -/
theorem complete_spec {s₀ : Session} {xs : List (List Byte)} {r data : List Byte} {fuel : ℕ}
    {bufs : List WSABUF} (he : Exact onRecvPacket)
    (hmax : s₀.staticKey ≠ 0 → s₀.maxPacketLen ≤ 8186) (hfuel : 8192 ≤ fuel)
    (h : Receiving s₀ s (xs, .pending r)) (hbufs : s.posted = some bufs) (hfit : fits bufs data)
    (hroom : ∀ ys r',
      (packets (packetHeader s₀) s₀).feed (xs, .pending r) data = (ys, .pending r') →
      r'.length < 8191) :
    ∃ s', complete onRecvPacket fuel s bufs data = some s' ∧
      Receiving s₀ s' ((packets (packetHeader s₀) s₀).feed (xs, .pending r) data) := by
  obtain ⟨hconn, ⟨f, hring⟩, bufs', hposted, hrecv⟩ := h.rest
  obtain rfl : bufs' = bufs := Option.some.inj (hposted.symm.trans hbufs)
  obtain ⟨bufs'', hrecv', hsum, hall⟩ := hring.recv
  obtain rfl : bufs'' = bufs' := Option.some.inj (hrecv'.symm.trans hrecv)
  obtain ⟨hpos, hle⟩ := hfit
  obtain ⟨buffer, hscatter, hholds⟩ := hall data (by omega)
  have hlt := hholds.lt
  -- the session as `RecvHandler` finds it
  let s₁ : Session := { s with
    recvQ := ({ s.recvQ with buffer := buffer } : CRingBuffer).moveRear data.length
    posted := none }
  have hpackets : packets (packetHeader s₀) s₁ = packets (packetHeader s₀) s₀ := by
    simp only [packets, s₁, h.staticKey, h.maxPacketLen]
  obtain ⟨s₂, hrun, hread⟩ := recvHandler_spec (s := s₁) (packetHeader s₀) h.base he
    (fun hheader => by
      change s.maxPacketLen ≤ 8186
      rw [h.maxPacketLen]
      refine hmax fun hzero => ?_
      simp [packetHeader, hzero] at hheader)
    hholds (show _ < fuel by omega) 0
  rw [hpackets] at hread
  have hexec : complete onRecvPacket fuel s bufs'' data = recvNotIncrease s₂ := by
    rw [complete, hscatter, Option.bind_some, execute]
    change (if s.groupId ≠ BaseGroupID ∧ s.isHandled = false then _
      else if s.staticKey ≠ 0 then recvHandler .NetHeader onRecvPacket fuel s₁ 0
      else recvHandler .LANHeader onRecvPacket fuel s₁ 0).bind recvNotIncrease = _
    have hhandler : (if s.staticKey ≠ 0 then recvHandler .NetHeader onRecvPacket fuel s₁ 0
        else recvHandler .LANHeader onRecvPacket fuel s₁ 0) = some s₂ := by
      rw [← hrun, packetHeader, h.staticKey]
      split <;> rfl
    rw [if_neg (by simp [h.base]), hhandler, Option.bind_some]
  rw [hexec]
  have hcalls : s₂.calls = xs ++ ((packets (packetHeader s₀) s₀).parse (r ++ data)).1 := by
    rw [hread.calls]
    exact congrArg (· ++ _) h.calls
  refine recvNotIncrease_spec (hread.groupId.trans h.base) ?_ (hread.staticKey.trans h.staticKey)
    (hread.maxPacketLen.trans h.maxPacketLen) hcalls ?_ fun r' hr' => ?_
  · rw [hread.refCount]
    exact h.unreleased (by simp)
  · have hrest := hread.rest
    cases hp : ((packets (packetHeader s₀) s₀).parse (r ++ data)).2 with
    | pending r' =>
      rw [hp] at hrest
      exact ⟨hrest.1.trans hconn, hrest.2⟩
    | closed =>
      rw [hp] at hrest
      exact hrest
  · exact hroom _ r' (Prod.ext rfl hr')

/-! ## All of them -/

/-- **However the stream is cut, the session is where the parser is.** -/
theorem receive_spec {s₀ : Session} {l : List Byte} {segs : List (List Byte)} {fuel : ℕ}
    (he : Exact onRecvPacket) (hmax : s₀.staticKey ≠ 0 → s₀.maxPacketLen ≤ 8186)
    (hfuel : 8192 ≤ fuel) (h : Receiving s₀ s ((packets (packetHeader s₀) s₀).parse l))
    (hcut : Cut onRecvPacket fuel s segs)
    (hroom : ∀ l' ys r, l' <+: l ++ segs.flatten →
      (packets (packetHeader s₀) s₀).parse l' = (ys, .pending r) → r.length < 8191) :
    ∃ s', receive onRecvPacket fuel s segs = some s' ∧
      Receiving s₀ s' ((packets (packetHeader s₀) s₀).parse (l ++ segs.flatten)) := by
  induction segs generalizing s l with
  | nil => exact ⟨s, rfl, by rwa [List.flatten_nil, List.append_nil]⟩
  | cons data segs ih =>
    rw [← foldl_feed]
    cases hst : (packets (packetHeader s₀) s₀).parse l with
    | mk xs rest =>
      rw [hst] at h
      cases rest with
      | closed =>
        -- no receive is posted, and the parser is through
        refine ⟨s, ?_, ?_⟩
        · rw [receive, h.rest.2]
        · have hclosed : ∀ segs : List (List Byte),
              segs.foldl (packets (packetHeader s₀) s₀).feed (xs, .closed) = (xs, .closed) := by
            intro segs
            induction segs with
            | nil => rfl
            | cons data segs ih => exact ih
          rw [hclosed]
          exact h
      | pending r =>
        obtain ⟨-, -, bufs, hposted, -⟩ := h.rest
        obtain ⟨hfit, hnext⟩ := hcut bufs hposted
        rw [List.flatten_cons, ← List.append_assoc] at hroom
        have hfeed : (packets (packetHeader s₀) s₀).feed (xs, .pending r) data =
            (packets (packetHeader s₀) s₀).parse (l ++ data) := by rw [← hst, feed_parse]
        obtain ⟨s', hdone, hs'⟩ := complete_spec he hmax hfuel h hposted hfit fun ys r' hr' =>
          hroom (l ++ data) ys r' (List.prefix_append _ _) (hfeed.symm.trans hr')
        rw [hfeed] at hs'
        obtain ⟨s'', hrec, hs''⟩ := ih hs' (hnext s' hdone) hroom
        refine ⟨s'', ?_, ?_⟩
        · rw [receive, hposted]
          exact (congrArg (Option.bind · _) hdone).trans hrec
        · rw [List.foldl_cons, hfeed, foldl_feed]
          exact hs''

/-- A session as it is accepted, before its first receive. -/
structure Accepted (s : Session) : Prop where
  base : s.groupId = BaseGroupID
  connected : s.connect = true
  unreleased : s.refCount < RELEASE_FLAG
  empty : s.recvQ.rear = s.recvQ.front
  calls : s.calls = []

theorem Accepted.holds (h : Accepted s) : Holds s.recvQ s.recvQ.front.toNat [] where
  front := by simp
  rear := by simp [h.empty]
  lt := by decide
  reads := fun i hi => absurd hi (Nat.not_lt_zero i)

/-- Its first receive. -/
theorem Accepted.receiving (h : Accepted s) : ∃ s', recvNotIncrease s = some s' ∧
    Receiving s s' ((packets (packetHeader s) s).parse []) := by
  have hnil : (packets (packetHeader s) s).parse [] = ([], .pending []) := by
    refine parse_more ?_
    unfold packets packetHeader
    split <;> rfl
  rw [hnil]
  refine recvNotIncrease_spec h.base h.unreleased rfl rfl h.calls ⟨h.connected, _, h.holds⟩
    fun r hr => ?_
  obtain rfl := Rest.pending.inj hr
  decide

/-- **A short stream fits**, cut anywhere: there is always room. -/
theorem cut_of_short {s₀ : Session} {l : List Byte} {segs : List (List Byte)} {fuel : ℕ}
    (he : Exact onRecvPacket) (hmax : s₀.staticKey ≠ 0 → s₀.maxPacketLen ≤ 8186)
    (hfuel : 8192 ≤ fuel) (h : Receiving s₀ s ((packets (packetHeader s₀) s₀).parse l))
    (hsegs : ∀ data ∈ segs, 1 ≤ data.length) (hshort : (l ++ segs.flatten).length < 8191) :
    Cut onRecvPacket fuel s segs := by
  induction segs generalizing s l with
  | nil => trivial
  | cons data segs ih =>
    intro bufs hposted
    rw [List.flatten_cons, ← List.append_assoc] at hshort
    cases hst : (packets (packetHeader s₀) s₀).parse l with
    | mk xs rest =>
      rw [hst] at h
      cases rest with
      | closed =>
        rw [h.rest.2] at hposted
        cases hposted
      | pending r =>
        obtain ⟨-, ⟨f, hholds⟩, bufs', hposted', hrecv⟩ := h.rest
        obtain rfl : bufs' = bufs := Option.some.inj (hposted'.symm.trans hposted)
        obtain ⟨bufs'', hrecv', hsum, -⟩ := hholds.recv
        obtain rfl : bufs'' = bufs' := Option.some.inj (hrecv'.symm.trans hrecv)
        have hr := (pending_suffix hst).length_le
        simp only [List.length_append] at hshort
        have hfit : fits bufs'' data := ⟨hsegs data List.mem_cons_self, by omega⟩
        have hfeed : (packets (packetHeader s₀) s₀).feed (xs, .pending r) data =
            (packets (packetHeader s₀) s₀).parse (l ++ data) := by rw [← hst, feed_parse]
        refine ⟨hfit, fun s' hs' => ?_⟩
        obtain ⟨s'', hdone, hnext⟩ := complete_spec he hmax hfuel h hposted hfit
          fun ys r' hr' => by
            have := (pending_suffix (hfeed.symm.trans hr')).length_le
            rw [List.length_append] at this
            omega
        obtain rfl : s'' = s' := Option.some.inj (hdone.symm.trans hs')
        rw [hfeed] at hnext
        refine ih hnext (fun d hd => hsegs d (List.mem_cons_of_mem _ hd)) ?_
        simp only [List.length_append]
        omega

/-- **Parsing is independent of segmentation.** For every stream and every
way of cutting it into receives that fit what is posted, a session with a
static key that stays in the base group ends, and it makes the calls of the
reference parser run once over the whole stream, with the same rest in its
ring, or closed where the parser closes. -/
theorem receive_segmentation {s₀ : Session} {fuel : ℕ} (h₀ : Accepted s₀)
    (hkey : s₀.staticKey ≠ 0) (hmax : s₀.maxPacketLen ≤ 8186) (he : Exact onRecvPacket)
    (hfuel : 8192 ≤ fuel) :
    ∃ s, recvNotIncrease s₀ = some s ∧ ∀ segs, Cut onRecvPacket fuel s segs →
      ∃ s', receive onRecvPacket fuel s segs = some s' ∧
        match (framing .NetHeader s₀.staticKey s₀.maxPacketLen).parse segs.flatten with
        | (calls, .pending r) =>
          s'.calls = calls ∧ s'.connect = true ∧ s'.recvQ.peek s'.recvQ.size = some r
        | (calls, .closed) => s'.calls = calls ∧ s'.connect = false := by
  obtain ⟨s, hs, hrecv⟩ := h₀.receiving
  refine ⟨s, hs, fun segs hcut => ?_⟩
  have hheader : packetHeader s₀ = .NetHeader := if_pos hkey
  obtain ⟨s', hrun, hs'⟩ := receive_spec he (fun _ => hmax) hfuel hrecv hcut fun l' ys r _ hp => by
    -- an incomplete packet leaves room in the ring
    have hmore := next_pending hp
    rw [packets, hheader] at hmore
    have := length_of_netFrame_more hmore
    omega
  rw [packets, hheader, List.nil_append] at hs'
  refine ⟨s', hrun, ?_⟩
  cases hst : (framing .NetHeader s₀.staticKey s₀.maxPacketLen).parse segs.flatten with
  | mk calls rest =>
    rw [hst] at hs'
    cases rest with
    | pending r =>
      obtain ⟨hconn, ⟨f, hholds⟩, -⟩ := hs'.rest
      refine ⟨hs'.calls, hconn, ?_⟩
      rw [hholds.size_eq, hholds.peek_eq le_rfl, List.take_length]
    | closed => exact ⟨hs'.calls, hs'.rest.1⟩

/-- A handler that takes its packet at once. -/
def takeAll : Handler := fun _ n => .read n fun _ => .done

theorem exact_takeAll : Exact takeAll := fun _ n => ⟨le_rfl, fun _ _ => Nat.sub_self n⟩

/-- A session with the static key 7. -/
def keyed : Session where
  sessionId := ⟨1, 0⟩
  groupId := BaseGroupID
  isHandled := false
  staticKey := 7
  maxPacketLen := 5000
  connect := true
  refCount := 1
  recvQ := ⟨fun _ => 0, 0, 0⟩
  posted := none
  recvCount := 0
  calls := []
  jobs := []

theorem accepted_keyed : Accepted keyed := ⟨rfl, rfl, by decide, rfl, rfl⟩

/-- A packet cut inside its header, and a wrong code behind it. -/
theorem receive_segmentation_keyed : ∃ s s', recvNotIncrease keyed = some s ∧
    receive takeAll 8192 s [[0x77, 1, 0], [0x31, 0x33, 0x5b, 0x78, 0, 0, 0, 0]] = some s' ∧
      s'.calls = [[9]] ∧ s'.connect = false := by
  obtain ⟨s, hs, hall⟩ := receive_segmentation accepted_keyed (by decide) (by decide) exact_takeAll
    (le_refl 8192)
  obtain ⟨s₁, hs₁, hrecv⟩ := accepted_keyed.receiving
  obtain rfl : s₁ = s := Option.some.inj (hs₁.symm.trans hs)
  have hcut : Cut takeAll 8192 s₁ [[0x77, 1, 0], [0x31, 0x33, 0x5b, 0x78, 0, 0, 0, 0]] :=
    cut_of_short exact_takeAll (fun _ => by decide) le_rfl hrecv (by decide) (by decide)
  obtain ⟨s', hrun, hparse⟩ := hall _ hcut
  -- the reference parser on the whole stream
  have hitem : (framing .NetHeader 7 5000).next [0x77, 1, 0, 0x31, 0x33, 0x5b, 0x78, 0, 0, 0, 0] =
      .item [9] 6 := by rfl
  have hbad : (framing .NetHeader 7 5000).next [0x78, 0, 0, 0, 0] = .bad := by rfl
  have hval : (framing .NetHeader keyed.staticKey keyed.maxPacketLen).parse
      [[0x77, 1, 0], [0x31, 0x33, 0x5b, 0x78, 0, 0, 0, 0]].flatten = ([[9]], .closed) := by
    refine (parse_item hitem).trans ?_
    rw [List.drop_succ_cons, List.drop_succ_cons, List.drop_succ_cons, List.drop_succ_cons,
      List.drop_succ_cons, List.drop_succ_cons, List.drop_zero, parse_bad hbad]
  rw [hval] at hparse
  exact ⟨s₁, s', hs, hrun, hparse⟩

end Session

end NetLib
