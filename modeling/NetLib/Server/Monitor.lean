import Mathlib.Data.BitVec
import Mathlib.Tactic.LinearCombination
import Mathlib.Tactic.Ring
import NetLib.Library.Pool
/-!
# The numbers of the monitor

Once a second `MonitorThread` turns four counters into rates. Packets are
counted by every thread for itself, and added to the shared counter a hundred at
a time; `InterlockedExchange64` takes the counter, so every packet is reported
once, or still waits in its thread. Accepts and disconnects are counted at once,
but the monitor reads the counter twice, once for the rate and once to remember
it: what happens between the two reads is never reported.
-/

namespace NetLib

namespace Monitor

/-- `_recvCount` or `_sendCount` -/
inductive Io
  | recv
  | send
  deriving DecidableEq

/-- `_acceptCount` or `_disconnectCount` -/
inductive Link
  | accept
  | disconnect
  deriving DecidableEq

/-- A counter that is taken, and its rate. -/
structure Taken where
  count : BitVec 64
  tps : BitVec 64
  /-- History: how much was counted, and the rates so far. -/
  counted : ℕ
  rates : List (BitVec 64)

/-- A counter that is read twice, and its rate. -/
structure Polled where
  count : BitVec 64
  /-- `_oldAccepCount` or `_oldDisconnect` -/
  old : BitVec 64
  tps : BitVec 64
  /-- History: how often the counter was raised, and how often of it between the
  two reads. -/
  happened : ℕ
  between : Bool
  missed : ℕ
  rates : List (BitVec 64)

structure Counters where
  io : Io → Taken
  link : Link → Polled

/-- Whose code runs when none of the counters is touched. -/
inductive Home
  | worker
  | acceptThread
  /-- `OnMonitorRun`, and what `MonitorThread` does besides. -/
  | monitorThread
  deriving DecidableEq

inductive Pc
  | code (home : Home)
  -- IncreaseRecvCount, increaseSendCount
  | loop (home : Home) (k : Io) (left : ℕ)
  -- AcceptThread
  | acceptStore (count : BitVec 64)
  -- MonitorThread
  | tps (l : Link)
  | old (l : Link)
  | exchange (k : Io)
  deriving DecidableEq

structure Thread where
  pc : Pc
  /-- `localRecvCount` and `localSendCount` -/
  localCount : Io → ℕ

inductive Event
  | go
  | increase (k : Io) (value : ℤ)
  /-- `_onDisconnect` -/
  | disconnect
  deriving DecidableEq

/-- A packet is counted; the shared counter goes up where the thread has a
hundred of them: `InterlockedAdd64(&_recvCount, 100)`. -/
def Taken.add (c : Taken) (full : Bool) : Taken :=
  { c with count := if full then c.count + 100 else c.count, counted := c.counted + 1 }

/-- `_recvTps = InterlockedExchange64(&_recvCount, 0)` -/
def Taken.exchange (c : Taken) : Taken :=
  { c with count := 0, tps := c.count, rates := c.rates ++ [c.count] }

/-- The counter goes up to `count`. -/
def Polled.store (c : Polled) (count : BitVec 64) : Polled :=
  { c with count := count, happened := c.happened + 1,
           missed := if c.between then c.missed + 1 else c.missed }

/-- `_acceptTps = _acceptCount - _oldAccepCount` -/
def Polled.readTps (c : Polled) : Polled :=
  { c with tps := c.count - c.old, rates := c.rates ++ [c.count - c.old], between := true }

/-- `_oldAccepCount = _acceptCount` -/
def Polled.readOld (c : Polled) : Polled := { c with old := c.count, between := false }

def Counters.onIo (s : Counters) (k : Io) (f : Taken → Taken) : Counters :=
  { s with io := Function.update s.io k (f (s.io k)) }

def Counters.onLink (s : Counters) (l : Link) (f : Polled → Polled) : Counters :=
  { s with link := Function.update s.link l (f (s.link l)) }

namespace Counters

variable {s : Counters} {k k' : Io} {l l' : Link} {f : Taken → Taken} {g : Polled → Polled}

@[simp] theorem onIo_self : (s.onIo k f).io k = f (s.io k) := Function.update_self ..

@[simp] theorem onLink_self : (s.onLink l g).link l = g (s.link l) := Function.update_self ..

theorem onIo_of_ne (h : k ≠ k') : (s.onIo k' f).io k = s.io k := Function.update_of_ne h ..

theorem onLink_of_ne (h : l ≠ l') : (s.onLink l' g).link l = s.link l :=
  Function.update_of_ne h ..

end Counters

/-- What `MonitorThread` does after a counter. -/
def afterOld : Link → Pc
  | .accept => .tps .disconnect
  | .disconnect => .exchange .recv

def afterExchange : Io → Pc
  | .recv => .exchange .send
  | .send => .code .monitorThread

/-- One round of the loop of `IncreaseRecvCount` or `increaseSendCount`. -/
def countOne (s : Counters) (q : Thread) (home : Home) (k : Io) (left : ℕ) : Counters × Thread :=
  if q.localCount k + 1 = 100 then
    (s.onIo k (·.add true), ⟨.loop home k left, Function.update q.localCount k 0⟩)
  else
    (s.onIo k (·.add false), ⟨.loop home k left, Function.update q.localCount k (q.localCount k + 1)⟩)

def next (s : Counters) (q : Thread) (e : Event) : Option (Counters × Thread) :=
  match q.pc, e with
  | .code home, .increase k value => some (s, { q with pc := .loop home k value.toNat })
  | .loop home k (left + 1), .go => some (countOne s q home k left)
  | .loop home _ 0, .go => some (s, { q with pc := .code home })
  | .code _, .disconnect => some (s.onLink .disconnect fun c => c.store (c.count + 1), q)
  | .code .acceptThread, .go => some (s, { q with pc := .acceptStore (s.link .accept).count })
  | .acceptStore count, .go =>
    some (s.onLink .accept (·.store (count + 1)), { q with pc := .code .acceptThread })
  | .code .monitorThread, .go => some (s, { q with pc := .tps .accept })
  | .tps l, .go => some (s.onLink l Polled.readTps, { q with pc := .old l })
  | .old l, .go => some (s.onLink l Polled.readOld, { q with pc := afterOld l })
  | .exchange k, .go => some (s.onIo k Taken.exchange, { q with pc := afterExchange k })
  | _, _ => none

abbrev World := Pool Counters Thread

abbrev step : World → ℕ × Event → Option World := Pool.step next

/-- A server at its start, with `n` threads beside `AcceptThread` and
`MonitorThread`. -/
def World.initial (n : ℕ) : World where
  shared := ⟨fun _ => ⟨0, 0, 0, []⟩, fun _ => ⟨0, 0, 0, 0, false, 0, []⟩⟩
  threads := (.acceptThread :: .monitorThread :: List.replicate n .worker).map
    fun home => ⟨.code home, fun _ => 0⟩

/-! ## What an action does -/

/-- The actions of a thread, told apart by what they find. -/
inductive Action (s : Counters) (n : Io → ℕ) : Pc → Counters → Pc → (Io → ℕ) → Prop
  | increase {home : Home} {k : Io} (value : ℤ) :
    Action s n (.code home) s (.loop home k value.toNat) n
  | full {home : Home} {k : Io} {left : ℕ} : n k + 1 = 100 →
    Action s n (.loop home k (left + 1)) (s.onIo k (·.add true)) (.loop home k left)
      (Function.update n k 0)
  | one {home : Home} {k : Io} {left : ℕ} : n k + 1 ≠ 100 →
    Action s n (.loop home k (left + 1)) (s.onIo k (·.add false)) (.loop home k left)
      (Function.update n k (n k + 1))
  | counted {home : Home} {k : Io} : Action s n (.loop home k 0) s (.code home) n
  | disconnect {home : Home} :
    Action s n (.code home) (s.onLink .disconnect fun c => c.store (c.count + 1)) (.code home) n
  | acceptLoad : Action s n (.code .acceptThread) s (.acceptStore (s.link .accept).count) n
  | acceptStore {count : BitVec 64} :
    Action s n (.acceptStore count) (s.onLink .accept (·.store (count + 1))) (.code .acceptThread) n
  | round : Action s n (.code .monitorThread) s (.tps .accept) n
  | tps {l : Link} : Action s n (.tps l) (s.onLink l Polled.readTps) (.old l) n
  | old {l : Link} : Action s n (.old l) (s.onLink l Polled.readOld) (afterOld l) n
  | exchange {k : Io} : Action s n (.exchange k) (s.onIo k Taken.exchange) (afterExchange k) n

/-- **Every action is one of these.** -/
theorem action_of_next {s s' : Counters} {q q' : Thread} {e : Event}
    (h : next s q e = some (s', q')) : Action s q.localCount q.pc s' q'.pc q'.localCount := by
  obtain ⟨pc, n⟩ := q
  cases pc with
  | loop home k left =>
    cases e with
    | go =>
      cases left with
      | zero =>
        obtain ⟨rfl, rfl⟩ := Prod.mk.inj (Option.some.inj h)
        exact .counted
      | succ left =>
        change some (if n k + 1 = 100 then _ else _) = _ at h
        split at h
        · obtain ⟨rfl, rfl⟩ := Prod.mk.inj (Option.some.inj h)
          exact .full (by assumption)
        · obtain ⟨rfl, rfl⟩ := Prod.mk.inj (Option.some.inj h)
          exact .one (by assumption)
    | increase k' value => cases left <;> cases h
    | disconnect => cases left <;> cases h
  | code home =>
    cases e with
    | increase k value =>
      obtain ⟨rfl, rfl⟩ := Prod.mk.inj (Option.some.inj h)
      exact .increase value
    | disconnect =>
      obtain ⟨rfl, rfl⟩ := Prod.mk.inj (Option.some.inj h)
      exact .disconnect
    | go =>
      cases home with
      | worker => cases h
      | acceptThread =>
        obtain ⟨rfl, rfl⟩ := Prod.mk.inj (Option.some.inj h)
        exact .acceptLoad
      | monitorThread =>
        obtain ⟨rfl, rfl⟩ := Prod.mk.inj (Option.some.inj h)
        exact .round
  | acceptStore | tps | old | exchange =>
    cases e with
    | go =>
      obtain ⟨rfl, rfl⟩ := Prod.mk.inj (Option.some.inj h)
      constructor
    | _ => cases h

/-! ## The invariant -/

def Pc.home : Pc → Home
  | .code home | .loop home _ _ => home
  | .acceptStore _ => .acceptThread
  | .tps _ | .old _ | .exchange _ => .monitorThread

/-- Which threads a server has. -/
def homes (n : ℕ) : List Home := .acceptThread :: .monitorThread :: List.replicate n .worker

theorem homes_inj {n i j : ℕ} {home : Home} (hi : (homes n)[i]? = some home)
    (hj : (homes n)[j]? = some home) (hne : home ≠ .worker) : i = j := by
  unfold homes at hi hj
  rcases i with _ | _ | i
  · rcases j with _ | _ | j
    · rfl
    · cases hi; cases hj
    · cases hi
      exact absurd (List.eq_of_mem_replicate (List.mem_of_getElem? hj)) (by decide)
  · rcases j with _ | _ | j
    · cases hi; cases hj
    · rfl
    · cases hi
      exact absurd (List.eq_of_mem_replicate (List.mem_of_getElem? hj)) (by decide)
  · exact absurd (List.eq_of_mem_replicate (List.mem_of_getElem? hi)) hne

/-- What has been reported, what was missed, and how far the monitor has come. -/
structure Polled.Known (c : Polled) : Prop where
  count : c.count = (c.happened : BitVec 64)
  rates : c.rates.sum + (c.missed : BitVec 64) = if c.between then c.count else c.old

/-- What the counters say of what was counted. -/
structure Inv (n : ℕ) (w : World) : Prop where
  homes : w.threads.map (fun q => q.pc.home) = homes n
  local_lt : ∀ q ∈ w.threads, ∀ k, q.localCount k < 100
  io : ∀ k, (w.shared.io k).rates.sum + (w.shared.io k).count +
    ((w.total fun q => q.localCount k : ℕ) : BitVec 64) = ((w.shared.io k).counted : BitVec 64)
  known : ∀ l, (w.shared.link l).Known
  /-- `AcceptThread` is alone with its counter, -/
  loaded : ∀ q ∈ w.threads, ∀ count, q.pc = .acceptStore count →
    count = (w.shared.link .accept).count
  /-- and `MonitorThread` with its reads. -/
  between : ∀ q ∈ w.threads, q.pc.home = .monitorThread →
    ∀ l, (w.shared.link l).between = decide (q.pc = .old l)

section Action

variable {s s' : Counters} {n n' : Io → ℕ} {pc pc' : Pc}

theorem Action.home_eq (h : Action s n pc s' pc' n') : pc'.home = pc.home := by
  cases h with
  | @old l => cases l <;> rfl
  | @exchange k => cases k <;> rfl
  | _ => rfl

theorem Action.local_lt (h : Action s n pc s' pc' n') (hn : ∀ k, n k < 100) (k : Io) :
    n' k < 100 := by
  have hlt := hn k
  cases h with
  | @full _ k' _ hfull =>
    by_cases hk : k = k'
    · subst hk
      rw [Function.update_self]
      omega
    · rwa [Function.update_of_ne hk]
  | @one _ k' _ hone =>
    by_cases hk : k = k'
    · subst hk
      rw [Function.update_self]
      omega
    · rwa [Function.update_of_ne hk]
  | _ => exact hlt

/-- What a thread counts is in its own counter or in the shared one. -/
theorem Action.io (h : Action s n pc s' pc' n') (k : Io) :
    (s'.io k).rates.sum + (s'.io k).count + (n' k : BitVec 64) + ((s.io k).counted : BitVec 64) =
      (s.io k).rates.sum + (s.io k).count + (n k : BitVec 64) +
        ((s'.io k).counted : BitVec 64) := by
  cases h with
  | @full _ k' _ hfull =>
    by_cases hk : k = k'
    · subst hk
      have hn : (n k : BitVec 64) + 1 = 100 := by
        rw [← Nat.cast_one, ← Nat.cast_add, hfull]
        rfl
      simp only [Counters.onIo_self, Taken.add, Function.update_self, if_true, Nat.cast_zero,
        Nat.cast_add, Nat.cast_one]
      linear_combination -hn
    · rw [Counters.onIo_of_ne hk, Function.update_of_ne hk]
  | @one _ k' _ hone =>
    by_cases hk : k = k'
    · subst hk
      simp only [Counters.onIo_self, Taken.add, Function.update_self, Bool.false_eq_true, if_false,
        Nat.cast_add, Nat.cast_one]
      ring
    · rw [Counters.onIo_of_ne hk, Function.update_of_ne hk]
  | @exchange k' =>
    by_cases hk : k = k'
    · subst hk
      simp only [Counters.onIo_self, Taken.exchange, List.sum_append, List.sum_singleton]
      ring
    · rw [Counters.onIo_of_ne hk]
  | _ => rfl

/-- Between the two reads what happens is missed. -/
theorem Polled.Known.store {c : Polled} (h : c.Known) : (c.store (c.count + 1)).Known := by
  have hrates := h.rates
  refine ⟨?_, ?_⟩
  · change c.count + 1 = ((c.happened + 1 : ℕ) : BitVec 64)
    rw [h.count, Nat.cast_add, Nat.cast_one]
  · unfold Polled.store
    by_cases hb : c.between = true
    · rw [if_pos hb] at hrates
      simp only [hb, if_true, Nat.cast_add, Nat.cast_one]
      linear_combination hrates
    · rw [if_neg hb] at hrates
      simp only [hb]
      exact hrates

/-- The first read reports all that has happened since the second one before, -/
theorem Polled.Known.readTps {c : Polled} (h : c.Known) (hb : c.between = false) :
    c.readTps.Known := by
  have hrates := h.rates
  rw [hb, if_neg Bool.false_ne_true] at hrates
  refine ⟨h.count, ?_⟩
  change (c.rates ++ [c.count - c.old]).sum + (c.missed : BitVec 64) = c.count
  rw [List.sum_append, List.sum_singleton]
  linear_combination hrates

/-- and the second one takes what was missed as reported. -/
theorem Polled.Known.readOld {c : Polled} (h : c.Known) (hb : c.between = true) :
    c.readOld.Known := by
  have hrates := h.rates
  rw [hb, if_pos rfl] at hrates
  exact ⟨h.count, hrates⟩

theorem Action.known (h : Action s n pc s' pc' n')
    (hloaded : ∀ count, pc = .acceptStore count → count = (s.link .accept).count)
    (hbetween : pc.home = .monitorThread → ∀ l, (s.link l).between = decide (pc = .old l))
    (hknown : ∀ l, (s.link l).Known) (l : Link) : (s'.link l).Known := by
  have hold := hknown l
  have hlink (l' : Link) (g : Polled → Polled) (hg : (g (s.link l')).Known) :
      ((s.onLink l' g).link l).Known := by
    by_cases hl : l = l'
    · subst hl
      rwa [Counters.onLink_self]
    · rwa [Counters.onLink_of_ne hl]
  cases h with
  | disconnect => exact hlink _ _ (hknown _).store
  | @acceptStore count =>
    obtain rfl := hloaded count rfl
    exact hlink _ _ (hknown _).store
  | @tps l' => exact hlink _ _ ((hknown l').readTps (hbetween rfl l'))
  | @old l' => exact hlink _ _ ((hknown l').readOld ((hbetween rfl l').trans (decide_eq_true rfl)))
  | _ => exact hold

/-- Nobody but `AcceptThread` touches its counter. -/
theorem Action.accept_eq (h : Action s n pc s' pc' n') (hhome : pc.home ≠ .acceptThread) :
    (s'.link .accept).count = (s.link .accept).count := by
  cases h with
  | disconnect => rw [Counters.onLink_of_ne (by decide)]
  | acceptStore => exact absurd rfl hhome
  | @tps l =>
    cases l with
    | accept => rw [Counters.onLink_self]; rfl
    | disconnect => rw [Counters.onLink_of_ne (by decide)]
  | @old l =>
    cases l with
    | accept => rw [Counters.onLink_self]; rfl
    | disconnect => rw [Counters.onLink_of_ne (by decide)]
  | _ => rfl

theorem Action.loaded (h : Action s n pc s' pc' n') {count : BitVec 64}
    (hpc : pc' = .acceptStore count) : count = (s'.link .accept).count := by
  cases h with
  | acceptLoad =>
    cases hpc
    rfl
  | @old l => cases l <;> cases hpc
  | @exchange k => cases k <;> cases hpc
  | _ => cases hpc

/-- Nobody but `MonitorThread` reads. -/
theorem Action.between_eq (h : Action s n pc s' pc' n') (hhome : pc.home ≠ .monitorThread)
    (l : Link) : (s'.link l).between = (s.link l).between := by
  have hstore (l' : Link) (count : Polled → BitVec 64) :
      ((s.onLink l' fun c => c.store (count c)).link l).between = (s.link l).between := by
    by_cases hl : l = l'
    · subst hl
      rw [Counters.onLink_self]
      rfl
    · rw [Counters.onLink_of_ne hl]
  cases h with
  | disconnect => exact hstore _ fun c => c.count + 1
  | acceptStore => exact hstore _ _
  | tps => exact absurd rfl hhome
  | old => exact absurd rfl hhome
  | _ => rfl

theorem afterOld_ne (l l' : Link) : afterOld l ≠ .old l' := by
  cases l <;> exact nofun

theorem afterExchange_ne (k : Io) (l : Link) : afterExchange k ≠ .old l := by
  cases k <;> exact nofun

/-- `MonitorThread` is between its two reads where the counter says so. -/
theorem Action.between (h : Action s n pc s' pc' n')
    (hold : pc.home = .monitorThread → ∀ l, (s.link l).between = decide (pc = .old l))
    (hhome : pc'.home = .monitorThread) (l : Link) :
    (s'.link l).between = decide (pc' = .old l) := by
  have hbetween := hold (h.home_eq ▸ hhome) l
  -- what leads from outside the two reads to outside
  have hquiet (hs : (s'.link l).between = (s.link l).between) (hpc : pc ≠ .old l)
      (hpc' : pc' ≠ .old l) : (s'.link l).between = decide (pc' = .old l) := by
    rw [hs, hbetween, decide_eq_false hpc, decide_eq_false hpc']
  cases h with
  | increase | full | one | counted | round => exact hquiet rfl nofun nofun
  | disconnect =>
    refine hquiet ?_ nofun nofun
    cases l with
    | accept => rw [Counters.onLink_of_ne (by decide)]
    | disconnect => rw [Counters.onLink_self]; rfl
  | acceptLoad => cases hhome
  | acceptStore => cases hhome
  | @tps l' =>
    by_cases hl : l = l'
    · subst hl
      rw [Counters.onLink_self, decide_eq_true rfl]
      rfl
    · have hne : Pc.old l' ≠ Pc.old l := fun heq => hl (Pc.old.inj heq).symm
      rw [Counters.onLink_of_ne hl, decide_eq_false hne, hbetween]
      exact decide_eq_false nofun
  | @old l' =>
    rw [decide_eq_false (afterOld_ne l' l)]
    by_cases hl : l = l'
    · subst hl
      rw [Counters.onLink_self]
      rfl
    · rw [Counters.onLink_of_ne hl, hbetween]
      exact decide_eq_false fun heq => hl (Pc.old.inj heq).symm
  | @exchange k => exact hquiet rfl nofun (afterExchange_ne k l)

end Action

/-! ## Runs -/

variable {n : ℕ} {w w' : World} {e : ℕ × Event}

/-- **Every action keeps the books.** -/
theorem Inv.step (h : Inv n w) (hst : Monitor.step w e = some w') : Inv n w' := by
  obtain ⟨q, q', hq, hnext, ht⟩ := Pool.step_eq_some hst
  have hmem := List.mem_of_getElem? hq
  have hact := action_of_next hnext
  -- `AcceptThread` and `MonitorThread` are no other thread
  have hother {j : ℕ} {r : Thread} (hij : e.1 ≠ j) (hr : w.threads[j]? = some r)
      (hne : r.pc.home ≠ .worker) : q.pc.home ≠ r.pc.home := by
    intro heq
    have hi : (Monitor.homes n)[e.1]? = some r.pc.home := by
      rw [← h.homes, List.getElem?_map, hq, Option.map_some, heq]
    have hj : (Monitor.homes n)[j]? = some r.pc.home := by
      rw [← h.homes, List.getElem?_map, hr, Option.map_some]
    exact hij (homes_inj hi hj hne)
  refine ⟨?_, ?_, fun k => ?_, ?_, ?_, ?_⟩
  · rw [ht, Pool.map_set hq hact.home_eq]
    exact h.homes
  · exact Pool.forall_threads ht h.local_lt (hact.local_lt (h.local_lt q hmem))
  · have htotal := congrArg (Nat.cast (R := BitVec 64))
      (Pool.total_step (fun q => q.localCount k) hq ht)
    have hio := hact.io k
    have hold := h.io k
    simp only [Nat.cast_add] at htotal
    linear_combination hio + hold + htotal
  · exact hact.known (h.loaded q hmem) (h.between q hmem) h.known
  · refine Pool.forall_threads_of_others ht ?_ fun count hpc => hact.loaded hpc
    intro j r hij hr count hpc
    have hhome : r.pc.home = .acceptThread := by rw [hpc]; rfl
    have hne := hother hij hr (by rw [hhome]; decide)
    rw [hact.accept_eq (hhome ▸ hne)]
    exact h.loaded r (List.mem_of_getElem? hr) count hpc
  · refine Pool.forall_threads_of_others ht ?_ fun hhome l =>
      hact.between (h.between q hmem) hhome l
    intro j r hij hr hhome l
    have hne := hother hij hr (by rw [hhome]; decide)
    rw [hact.between_eq (hhome ▸ hne)]
    exact h.between r (List.mem_of_getElem? hr) hhome l

theorem Inv.initial (n : ℕ) : Inv n (World.initial n) := by
  have hidle : ∀ q ∈ (World.initial n).threads, ∃ home, q = ⟨.code home, fun _ => 0⟩ := by
    intro q hq
    obtain ⟨home, -, rfl⟩ := List.mem_map.1 hq
    exact ⟨home, rfl⟩
  refine ⟨?_, ?_, fun k => ?_, fun l => ⟨rfl, rfl⟩, ?_, ?_⟩
  · exact (List.map_map ..).trans (List.map_id _)
  · intro q hq k
    obtain ⟨home, rfl⟩ := hidle q hq
    exact Nat.succ_pos _
  · have htotal : (World.initial n).total (fun q => q.localCount k) = 0 :=
      Pool.total_eq_zero fun q hq => by
        obtain ⟨home, rfl⟩ := hidle q hq
        rfl
    rw [htotal]
    rfl
  · intro q hq count hpc
    obtain ⟨home, rfl⟩ := hidle q hq
    cases hpc
  · intro q hq _ l
    obtain ⟨home, rfl⟩ := hidle q hq
    rfl

/-- **No packet is lost or counted twice**: what has been reported, what the
counter holds and what fewer than a hundred a thread still wait for is what
was counted. -/
theorem packets_reported (n : ℕ)
    (h : Runs Monitor.step (fun _ _ _ => True) (World.initial n) w) (k : Io) :
    ∃ waiting ≤ 99 * (n + 2),
      (w.shared.io k).rates.sum + (w.shared.io k).count + (waiting : BitVec 64) =
        ((w.shared.io k).counted : BitVec 64) := by
  have hinv := h.invariant (Inv.initial n) fun hinv hst _ => hinv.step hst
  refine ⟨w.total fun q => q.localCount k, ?_, hinv.io k⟩
  have hlen : w.threads.length = n + 2 := by
    have := congrArg List.length hinv.homes
    rwa [List.length_map, homes, List.length_cons, List.length_cons, List.length_replicate] at this
  have hle := List.sum_le_card_nsmul (w.threads.map fun q => q.localCount k) 99 fun m hm => by
    obtain ⟨q, hq, rfl⟩ := List.mem_map.1 hm
    have := hinv.local_lt q hq k
    omega
  rw [List.length_map, hlen, smul_eq_mul] at hle
  unfold Pool.total
  omega

/-- A worker counts 150 packets, and the monitor makes a round. -/
def batch : List (ℕ × Event) :=
  (2, .increase .recv 150) :: List.replicate 150 (2, .go) ++ List.replicate 7 (1, .go)

/-- The monitor sees 100 of them. -/
theorem packets_reported_batch : ∃ w : World, exec Monitor.step (World.initial 1) batch = some w ∧
    (w.shared.io .recv).rates = [100] ∧ ∃ waiting : ℕ, waiting ≤ 99 * (1 + 2) ∧
      (w.shared.io .recv).rates.sum + (w.shared.io .recv).count + (waiting : BitVec 64) =
        ((w.shared.io .recv).counted : BitVec 64) := by
  obtain ⟨w, hw, hrates⟩ := Option.map_eq_some_iff.1
    (show (exec Monitor.step (World.initial 1) batch).map (fun w => (w.shared.io .recv).rates) =
      some [100] by decide +kernel)
  exact ⟨w, hw, hrates, packets_reported 1 (.of_exec hw) .recv⟩

/-- **What happens between the two reads is lost, and nothing else**: what has
been reported and what was missed is what had happened when the monitor last
looked. -/
theorem links_reported (n : ℕ)
    (h : Runs Monitor.step (fun _ _ _ => True) (World.initial n) w) (l : Link) :
    (w.shared.link l).rates.sum + ((w.shared.link l).missed : BitVec 64) =
        (if (w.shared.link l).between then (w.shared.link l).count else (w.shared.link l).old) ∧
      (w.shared.link l).count = ((w.shared.link l).happened : BitVec 64) := by
  have hinv := h.invariant (Inv.initial n) fun hinv hst _ => hinv.step hst
  exact ⟨(hinv.known l).rates, (hinv.known l).count⟩

/-- Of two accepts the second one comes between the two reads. -/
def acceptBetween : List (ℕ × Event) :=
  [(0, .go), (0, .go), (1, .go), (1, .go), (0, .go), (0, .go)] ++ List.replicate 8 (1, .go)

/-- The round after does not have it either. -/
theorem links_reported_lost : ∃ w : World,
    exec Monitor.step (World.initial 0) acceptBetween = some w ∧
    (w.shared.link .accept).rates = [1, 0] ∧ (w.shared.link .accept).happened = 2 ∧
    (w.shared.link .accept).rates.sum + ((w.shared.link .accept).missed : BitVec 64) =
        (if (w.shared.link .accept).between then (w.shared.link .accept).count
          else (w.shared.link .accept).old) ∧
      (w.shared.link .accept).count = ((w.shared.link .accept).happened : BitVec 64) := by
  obtain ⟨w, hw, heq⟩ := Option.map_eq_some_iff.1
    (show (exec Monitor.step (World.initial 0) acceptBetween).map
      (fun w => ((w.shared.link .accept).rates, (w.shared.link .accept).happened)) =
      some ([1, 0], 2) by decide +kernel)
  obtain ⟨hrates, hhappened⟩ := Prod.mk.inj heq
  exact ⟨w, hw, hrates, hhappened, links_reported 0 (.of_exec hw) .accept⟩

end Monitor

end NetLib
