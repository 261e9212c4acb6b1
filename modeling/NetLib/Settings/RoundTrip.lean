import NetLib.Settings.Tokens
/-!
# A settings table survives its file

`Parse` goes by the tokens of the text, so what it stores depends on the table
alone and not on how it was laid out, as long as the tokenizer sees the comments
that a reader sees.
-/

namespace NetLib

namespace SettingParser

open WChar

variable {p : SettingParser} {ts : List Token} {table : List Group}

/-! ## Tokens of a table -/

theorem length_le_of_layout {Block : WString → Prop} {text : WString} (h : Layout Block ts text)
    (hok : ∀ t ∈ ts, t.Ok) : ts.length ≤ text.length := by
  induction h with
  | done => exact Nat.zero_le _
  | @token pieces t ts rest _ _ _ ih =>
    have hrest := ih fun u hu => hok u (List.mem_cons_of_mem t hu)
    have hpos : 0 < t.text.length := by
      have ht := hok t List.mem_cons_self
      cases t with
      | value v =>
        cases v with
        | bare w => exact List.length_pos_iff.2 (IsBare.nonempty ht)
        | quoted w => simp [Token.text]
      | delimiter c => exact Nat.one_pos
    simp only [List.length_append, List.length_cons]
    omega

theorem ok_of_mem_pairTokens {kv : WString × Value} (hkey : IsBare kv.1) (hvalue : kv.2.Ok)
    {t : Token} (ht : t ∈ pairTokens kv) : t.Ok := by
  simp only [pairTokens, List.mem_cons, List.not_mem_nil, or_false] at ht
  rcases ht with rfl | rfl | rfl
  · exact hkey
  · exact (rfl : isSingle colon = true)
  · exact hvalue

theorem Group.Ok.token {g : Group} (h : g.Ok) {t : Token} (ht : t ∈ g.tokens) : t.Ok := by
  simp only [Group.tokens, List.mem_append, List.mem_cons, List.mem_flatMap, List.not_mem_nil,
    or_false] at ht
  rcases ht with ((rfl | rfl | rfl) | ⟨kv, hkv, ht⟩) | rfl
  · exact h.name
  · exact (rfl : isSingle colon = true)
  · exact (rfl : isSingle openBrace = true)
  · exact ok_of_mem_pairTokens (h.keys kv hkv) (h.values kv hkv) ht
  · exact (rfl : isSingle closeBrace = true)

theorem TableOk.token (h : TableOk table) {t : Token} (ht : t ∈ tokens table) : t.Ok := by
  obtain ⟨g, hg, ht⟩ := List.mem_flatMap.1 ht
  exact (h.groups g hg).token ht

/-- No word of a table but a brace starts with a brace. -/
theorem IsBare.head_ne {w : WString} (h : IsBare w) :
    w.headD 0 ≠ closeBrace ∧ w.headD 0 ≠ openBrace := by
  obtain ⟨c, w, rfl⟩ := List.exists_cons_of_ne_nil h.nonempty
  have := h.plain c List.mem_cons_self
  simp only [List.mem_cons, List.not_mem_nil, or_false, not_or] at this
  exact ⟨this.2.2.2.2.2.2.2.2.2, this.2.2.2.2.2.2.2.2.1⟩

theorem Value.Ok.head_ne {v : Value} (h : v.Ok) : v.text.headD 0 ≠ openBrace := by
  cases v with
  | bare w => exact (IsBare.head_ne h).2
  | quoted w =>
    have := IsQuoted.noBrace h
    cases w with
    | nil => exact (by decide : (0 : WChar) ≠ openBrace)
    | cons c w => exact fun heq => this (congrArg some heq)

/-! ## What `Parse` stores -/

/-- The groups that are stored. -/
structure Filled (p : SettingParser) (done : List (WString × List (WString × WString))) : Prop where
  index : p.groupIndex = (done.length : ℤ) - 1
  names : p.groupsName = done.map Prod.fst ++ List.replicate (MAXGROUPSIZE - done.length) []
  settings :
    p.settingsContainer = done.map Prod.snd ++ List.replicate (MAXGROUPSIZE - done.length) []

theorem Filled.moveTo {done : List (WString × List (WString × WString))} (h : Filled p done)
    (i : ℕ) : Filled (p.moveTo i) done := ⟨h.index, h.names, h.settings⟩

/-- What of a table is stored. -/
def Group.entry (g : Group) : WString × List (WString × WString) :=
  (g.name, g.pairs.map fun kv => (kv.1, kv.2.text))

theorem Filled.openGroup {done : List (WString × List (WString × WString))} (h : Filled p done)
    (hroom : done.length < MAXGROUPSIZE) (key : WString) :
    ∃ q, p.openGroup key = .ok q ∧ Filled q (done ++ [(key, [])]) ∧
      q.buffer = p.buffer ∧ q.bufferIndex = p.bufferIndex ∧ q.bufferSize = p.bufferSize := by
  have hindex : p.groupIndex + 1 = (done.length : ℤ) := by
    rw [h.index]
    omega
  obtain ⟨d, hd⟩ : ∃ d, MAXGROUPSIZE - done.length = d + 1 :=
    ⟨MAXGROUPSIZE - done.length - 1, by omega⟩
  have hd' : MAXGROUPSIZE - (done ++ [(key, [])]).length = d := by
    rw [List.length_append, List.length_singleton]
    omega
  rw [SettingParser.openGroup, if_pos ⟨by omega, by omega⟩]
  refine ⟨_, rfl, ⟨?_, ?_, ?_⟩, rfl, rfl, rfl⟩
  · change p.groupIndex + 1 = _
    rw [hindex, List.length_append, List.length_singleton]
    omega
  · change p.groupsName.set (p.groupIndex + 1).toNat key = _
    rw [hindex, Int.toNat_natCast, h.names, hd, hd', List.replicate_succ,
      List.set_append_right _ _ (by simp), List.map_append, List.append_assoc]
    simp
  · change p.settingsContainer = _
    rw [h.settings, hd, hd', List.replicate_succ, List.map_append, List.append_assoc]
    rfl

theorem insert_of_notMem {settings : List (WString × WString)} {key value : WString}
    (h : key ∉ settings.map Prod.fst) : insert settings key value = settings ++ [(key, value)] := by
  have hnone : settings.lookup key = none := by
    refine List.lookup_eq_none_iff.2 fun kv hkv => ?_
    have hne : key ≠ kv.1 := by
      rintro rfl
      exact h (List.mem_map_of_mem hkv)
    simpa using hne
  rw [insert, hnone]
  rfl

theorem modify_length_append {α : Type} (l : List α) (x : α) (l' : List α) (f : α → α) :
    (l ++ x :: l').modify l.length f = l ++ f x :: l' := by
  induction l with
  | nil => rfl
  | cons y l ih =>
    rw [List.length_cons, List.cons_append, List.modify_succ_cons, ih, List.cons_append]

theorem Filled.store {done : List (WString × List (WString × WString))} {name : WString}
    {settings : List (WString × WString)} (h : Filled p (done ++ [(name, settings)]))
    (hroom : done.length < MAXGROUPSIZE) (key value : WString) :
    ∃ q, p.store key value = .ok q ∧ Filled q (done ++ [(name, insert settings key value)]) ∧
      q.buffer = p.buffer ∧ q.bufferIndex = p.bufferIndex ∧ q.bufferSize = p.bufferSize := by
  have hindex : p.groupIndex = (done.length : ℤ) := by
    rw [h.index, List.length_append, List.length_singleton]
    omega
  rw [SettingParser.store, if_pos ⟨by omega, by omega⟩]
  refine ⟨_, rfl, ⟨?_, ?_, ?_⟩, rfl, rfl, rfl⟩
  · change p.groupIndex = _
    rw [hindex, List.length_append, List.length_singleton]
    omega
  · change p.groupsName = _
    rw [h.names]
    simp
  · change p.settingsContainer.modify p.groupIndex.toNat _ = _
    rw [hindex, Int.toNat_natCast, h.settings]
    simp only [List.map_append, List.map_cons, List.map_nil, List.append_assoc, List.length_append,
      List.length_cons, List.length_nil, List.cons_append, List.nil_append]
    have hmodify := modify_length_append (done.map Prod.snd) settings
      (List.replicate (MAXGROUPSIZE - (done.length + (0 + 1))) [])
      fun settings => insert settings key value
    rwa [List.length_map] at hmodify

theorem Reads.congr {q : SettingParser} (h : Reads p ts) (hbuffer : q.buffer = p.buffer)
    (hindex : q.bufferIndex = p.bufferIndex) (hsize : q.bufferSize = p.bufferSize) :
    Reads q ts := by
  obtain ⟨text, hlayout, hshows⟩ := h
  exact ⟨text, hlayout, by rw [hbuffer, hindex]; exact hshows.chars,
    by rw [hbuffer, hindex]; exact hshows.null, by rw [hindex, hsize]; exact hshows.size⟩

/-- A round of the loop reads a key, a colon, and a value or an opening brace. -/
theorem parseLoop_round {key : WString} {t : Token} (n : ℕ) (hkey : IsBare key) (ht : t.Ok)
    (h : Reads p (.value (.bare key) :: .delimiter colon :: t :: ts)) :
    ∃ i, Reads (p.moveTo i) ts ∧ parseLoop (n + 1) p =
      match if t.word.headD 0 = openBrace then (p.moveTo i).openGroup key
        else (p.moveTo i).store key t.word with
      | .error e => .error e
      | .ok q => parseLoop n q := by
  obtain ⟨i, hi, hreads⟩ := h.getTok hkey
  obtain ⟨j, hj, hreads'⟩ := hreads.getTok (rfl : isSingle colon = true)
  obtain ⟨k, hk, hreads''⟩ := hreads'.getTok ht
  refine ⟨k, hreads'', ?_⟩
  have hword : (Token.value (.bare key)).word = key := rfl
  rw [parseLoop, hi]
  simp only [hword, if_neg hkey.head_ne.1]
  rw [hj]
  simp only [Token.word, List.headD_cons, ne_eq, not_true_eq_false, if_false]
  rw [hk]
  rfl

/-- The pairs of a group. -/
theorem parseLoop_pairs {done : List (WString × List (WString × WString))} {name : WString}
    {settings : List (WString × WString)} (pairs : List (WString × Value)) (n : ℕ)
    (hroom : done.length < MAXGROUPSIZE) (hkeys : ∀ kv ∈ pairs, IsBare kv.1)
    (hvalues : ∀ kv ∈ pairs, kv.2.Ok)
    (hdistinct : (settings.map Prod.fst ++ pairs.map Prod.fst).Nodup)
    (hfilled : Filled p (done ++ [(name, settings)]))
    (hreads : Reads p (pairs.flatMap pairTokens ++ ts)) :
    ∃ q, parseLoop (n + pairs.length) p = parseLoop n q ∧ Reads q ts ∧
      Filled q (done ++ [(name, settings ++ pairs.map fun kv => (kv.1, kv.2.text))]) := by
  induction pairs generalizing p settings with
  | nil => exact ⟨p, rfl, hreads, by simpa using hfilled⟩
  | cons kv pairs ih =>
    obtain ⟨key, v⟩ := kv
    have hvalue : v.Ok := hvalues _ List.mem_cons_self
    obtain ⟨i, hi, hround⟩ := parseLoop_round (n + pairs.length) (hkeys _ List.mem_cons_self)
      (t := .value v) hvalue (by simpa [pairTokens] using hreads)
    have hnew : key ∉ settings.map Prod.fst := fun hmem =>
      (List.nodup_append.1 hdistinct).2.2 key hmem key List.mem_cons_self rfl
    obtain ⟨q, hq, hfilled', hb, hx, hs⟩ := (hfilled.moveTo i).store hroom key v.text
    rw [insert_of_notMem hnew] at hfilled'
    obtain ⟨r, hr, hreads', hfilled''⟩ := ih (fun kv hkv => hkeys kv (List.mem_cons_of_mem _ hkv))
      (fun kv hkv => hvalues kv (List.mem_cons_of_mem _ hkv)) (by simpa using hdistinct) hfilled'
      (hi.congr hb hx hs)
    refine ⟨r, ?_, hreads', by simpa using hfilled''⟩
    have hword : (Token.value v).word = v.text := rfl
    rw [List.length_cons, ← Nat.add_assoc, hround, hword, if_neg hvalue.head_ne, hq]
    exact hr

/-- A group. -/
theorem parseLoop_group {done : List (WString × List (WString × WString))} {g : Group} (n : ℕ)
    (hroom : done.length < MAXGROUPSIZE) (hg : g.Ok) (hfilled : Filled p done)
    (hreads : Reads p (g.tokens ++ ts)) :
    ∃ q, parseLoop (n + (g.pairs.length + 2)) p = parseLoop n q ∧ Reads q ts ∧
      Filled q (done ++ [g.entry]) := by
  have hstart : Reads p (.value (.bare g.name) :: .delimiter colon :: .delimiter openBrace ::
      (g.pairs.flatMap pairTokens ++ .delimiter closeBrace :: ts)) := by
    simpa [Group.tokens] using hreads
  have hopens : (Token.delimiter openBrace).Ok := (rfl : isSingle openBrace = true)
  obtain ⟨i, hi, hround⟩ := parseLoop_round (n + 1 + g.pairs.length) hg.name hopens hstart
  obtain ⟨q, hq, hfilled', hb, hx, hs⟩ := (hfilled.moveTo i).openGroup hroom g.name
  obtain ⟨r, hr, hreads', hfilled''⟩ := parseLoop_pairs g.pairs (n + 1) hroom hg.keys hg.values
    (by simpa using hg.distinct) hfilled' (hi.congr hb hx hs)
  -- the closing brace
  obtain ⟨j, hj, hreads''⟩ := hreads'.getTok (rfl : isSingle closeBrace = true)
  refine ⟨r.moveTo j, ?_, hreads'', hfilled''.moveTo j⟩
  have hbrace : (Token.delimiter openBrace).word.headD 0 = openBrace := rfl
  rw [show n + (g.pairs.length + 2) = n + 1 + g.pairs.length + 1 by omega, hround,
    if_pos hbrace, hq]
  change parseLoop (n + 1 + g.pairs.length) q = _
  rw [hr, parseLoop, hj]
  rfl

theorem length_pairs (pairs : List (WString × Value)) :
    (pairs.flatMap pairTokens).length = 3 * pairs.length := by
  induction pairs with
  | nil => rfl
  | cons kv pairs ih =>
    rw [List.flatMap_cons, List.length_append, ih, List.length_cons]
    change 3 + _ = _
    omega

/-- All groups. -/
theorem parseLoop_table {done : List (WString × List (WString × WString))} (table : List Group)
    (n : ℕ) (hroom : done.length + table.length ≤ MAXGROUPSIZE) (hok : ∀ g ∈ table, g.Ok)
    (hfilled : Filled p done) (hreads : Reads p (tokens table)) :
    ∃ q, parseLoop (n + (tokens table).length + 1) p = .ok q ∧
      Filled q (done ++ table.map Group.entry) := by
  induction table generalizing p done n with
  | nil =>
    obtain ⟨i, hi⟩ := Reads.getTok_nil hreads
    refine ⟨p.moveTo i, ?_, by simpa using hfilled.moveTo i⟩
    rw [parseLoop, hi]
  | cons g table ih =>
    rw [List.length_cons] at hroom
    have htokens : tokens (g :: table) = g.tokens ++ tokens table := List.flatMap_cons
    have hlength : g.pairs.length + 2 ≤ g.tokens.length := by
      have hpairs := length_pairs g.pairs
      simp only [Group.tokens, List.length_append, List.length_cons, List.length_nil]
      omega
    obtain ⟨d, hd⟩ := Nat.exists_eq_add_of_le hlength
    rw [htokens] at hreads
    obtain ⟨q, hq, hreads', hfilled'⟩ := parseLoop_group (n + d + (tokens table).length + 1)
      (by omega) (hok g List.mem_cons_self) hfilled hreads
    obtain ⟨r, hr, hfilled''⟩ := ih (n + d) (by simp; omega)
      (fun g hg => hok g (List.mem_cons_of_mem _ hg)) hfilled' hreads'
    refine ⟨r, ?_, by simpa using hfilled''⟩
    rw [htokens, List.length_append, hd,
      show n + (g.pairs.length + 2 + d + (tokens table).length) + 1 =
      n + d + (tokens table).length + 1 + (g.pairs.length + 2) by omega, hq, hr]

/-! ## What the parser answers -/

theorem lookup_of_mem {settings : List (WString × WString)} {key value : WString}
    (hdistinct : (settings.map Prod.fst).Nodup) (h : (key, value) ∈ settings) :
    settings.lookup key = some value := by
  induction settings with
  | nil => cases h
  | cons kv settings ih =>
    obtain ⟨k, v⟩ := kv
    obtain ⟨hnot, hdistinct⟩ := List.nodup_cons.1 hdistinct
    rcases List.mem_cons.1 h with heq | hmem
    · obtain ⟨rfl, rfl⟩ := Prod.mk.inj heq
      rw [List.lookup_cons_self]
    · have hne : key ≠ k := by
        rintro rfl
        exact hnot (List.mem_map.2 ⟨(key, value), hmem, rfl⟩)
      rw [List.lookup_cons, beq_eq_false_iff_ne.2 hne]
      exact ih hdistinct hmem

theorem mem_of_lookup {settings : List (WString × WString)} {key value : WString}
    (h : settings.lookup key = some value) : (key, value) ∈ settings := by
  obtain ⟨l, l', rfl, -⟩ := List.lookup_eq_some_iff.1 h
  exact List.mem_append_right _ List.mem_cons_self

/-- The name of a group and of a key in it. -/
theorem getValueImpl_eq {group key : WString} (hdot : dot ∉ group) :
    p.getValueImpl (group ++ dot :: key) =
      match (p.groupsName.zip p.settingsContainer).find? fun g => g.1 == group with
      | some g => .ok (g.2.lookup key)
      | none => .ok none := by
  have hgroup : ∀ c ∈ group, (c != dot) = true := by
    intro c hc
    simp only [bne_iff_ne, ne_eq]
    rintro rfl
    exact hdot hc
  have hstop : (dot != dot) = false := by decide
  simp only [getValueImpl, List.takeWhile_append_of_pos hgroup, List.dropWhile_append_of_pos hgroup,
    List.takeWhile_cons, List.dropWhile_cons, hstop, Bool.false_eq_true, if_false,
    List.append_nil, List.drop_one, List.tail_cons]
  exact if_pos (List.mem_append_right _ List.mem_cons_self)

theorem Filled.zip {done : List (WString × List (WString × WString))} (h : Filled p done) :
    p.groupsName.zip p.settingsContainer =
      done ++ List.replicate (MAXGROUPSIZE - done.length) ([], []) := by
  rw [h.names, h.settings, List.zip_append (by simp), List.zip_replicate, Nat.min_self]
  congr 1
  induction done with
  | nil => rfl
  | cons g done ih => simp [List.zip_map']

/-- The parser answers what the table has. -/
theorem Filled.answers (h : Filled p (table.map Group.entry)) (hok : TableOk table) :
    Answers p table where
  written := by
    rintro group key value ⟨g, hg, rfl, hvalue⟩
    rw [getValueImpl_eq (hok.groups g hg).noDot, h.zip]
    have hfind : (table.map Group.entry ++
        List.replicate (MAXGROUPSIZE - (table.map Group.entry).length) ([], [])).find?
          (fun e => e.1 == g.name) = some g.entry := by
      obtain ⟨l, l', rfl⟩ := List.append_of_mem hg
      have hdistinct := hok.distinct
      rw [List.map_append, List.map_cons, List.nodup_append] at hdistinct
      have hnone : (l.map Group.entry).find? (fun e => e.1 == g.name) = none := by
        refine List.find?_eq_none.2 fun e he => ?_
        obtain ⟨g', hg', rfl⟩ := List.mem_map.1 he
        have := hdistinct.2.2 g'.name (List.mem_map_of_mem hg') g.name List.mem_cons_self
        simpa [Group.entry] using this
      rw [List.map_append, List.append_assoc, List.find?_append, hnone]
      simp [Group.entry]
    rw [hfind]
    refine congrArg Except.ok (lookup_of_mem ?_ (List.mem_map.2 ⟨(key, value), hvalue, rfl⟩))
    rw [Group.entry, List.map_map]
    exact (hok.groups g hg).distinct
  unwritten := by
    intro group key hdot hno
    rw [getValueImpl_eq hdot, h.zip]
    split
    · next e he =>
      refine congrArg Except.ok ?_
      have hname : e.1 = group := by simpa using List.find?_some he
      by_contra hsome
      obtain ⟨v, hv⟩ := Option.ne_none_iff_exists'.1 hsome
      have hv' := mem_of_lookup hv
      rcases List.mem_append.1 (List.mem_of_find?_eq_some he) with hmem | hmem
      · obtain ⟨g, hg, rfl⟩ := List.mem_map.1 hmem
        obtain ⟨⟨k, value⟩, hkv, heq⟩ := List.mem_map.1 hv'
        obtain ⟨rfl, rfl⟩ := Prod.mk.inj heq
        exact hno value ⟨g, hg, hname, hkv⟩
      · rw [(List.mem_replicate.1 hmem).2] at hv'
        cases hv'
    · rfl

/-! ## The round trip -/

/-- The table of one group `g` with one pair of `k` and `v`. -/
def oneGroup : List Group := [⟨[0x67], [([0x6B], .bare [0x76])]⟩]

theorem isBare_singleton {c : WChar} (hc : c ∉ [space, tab, carriageReturn, lineFeed, 0,
    byteOrderMark, quote, colon, openBrace, closeBrace]) : IsBare [c] where
  nonempty := List.cons_ne_nil _ _
  length := by
    rw [List.length_singleton]
    decide
  plain d hd := List.mem_singleton.1 hd ▸ hc
  noLine h := absurd h.length_le (by simp)
  noBlock h := absurd h.length_le (by simp)

theorem oneGroup_ok : TableOk oneGroup := by
  refine ⟨fun g hg => ?_, by decide, by simp [oneGroup]⟩
  rw [List.mem_singleton.1 hg]
  refine ⟨isBare_singleton (by decide +kernel), by decide +kernel, fun kv hkv => ?_,
    fun kv hkv => ?_, by simp⟩
  · rw [List.mem_singleton.1 hkv]
    exact isBare_singleton (by decide +kernel)
  · rw [List.mem_singleton.1 hkv]
    exact isBare_singleton (by decide +kernel)

/-- The text of `oneGroup` with a block comment before it. -/
theorem oneGroup_layout {Block : WString → Prop} (comment : WString) (h : Block comment) :
    Layout Block (tokens oneGroup)
      (space :: slash :: asterisk :: comment ++ asterisk :: slash :: space ::
        [0x67, colon, openBrace, 0x6B, colon, 0x76, closeBrace]) := by
  have hnone : ∀ q ∈ ([] : List Piece), q.Ok Block := nofun
  have hdelimiter {c : WChar} {ts : List Token} {rest : WString} (hl : Layout Block ts rest) :
      Layout Block (.delimiter c :: ts) (c :: rest) := .token hnone nofun hl
  have hword {c d : WChar} {ts : List Token} {rest : WString} (hd : isSingle d = true)
      (hl : Layout Block ts (d :: rest)) :
      Layout Block (.value (.bare [c]) :: ts) (c :: d :: rest) :=
    .token hnone (fun _ _ x hx => .inr (Option.some.inj hx ▸ hd)) hl
  have hend : Layout Block [] [] := .done hnone .nil
  have hpairs := hword (c := 0x6B) (d := colon) rfl (hdelimiter (hword (c := 0x76)
    (d := closeBrace) rfl (hdelimiter hend)))
  have hspace : (Piece.blank space).Ok Block := List.mem_cons_self
  have hpieces : ∀ q ∈ [Piece.blank space, .block comment, .blank space], q.Ok Block := by
    intro q hq
    simp only [List.mem_cons, List.not_mem_nil, or_false] at hq
    rcases hq with rfl | rfl | rfl
    · exact hspace
    · exact h
    · exact hspace
  have hends : EndsBare (colon :: openBrace :: [0x6B, colon, 0x76, closeBrace]) :=
    fun x hx => .inr (Option.some.inj hx ▸ (rfl : isSingle colon = true))
  have hall := Layout.token (t := .value (.bare [0x67])) hpieces (fun _ _ => hends)
    (hdelimiter (c := colon) (hdelimiter (c := openBrace) hpairs))
  simpa [Piece.text, Token.text, tokens, oneGroup, Group.tokens, pairTokens] using hall

theorem isBlock_of_ne {comment : WString} (h : asterisk ∉ comment ∨ slash ∉ comment) :
    IsBlock comment := by
  intro hstop
  rcases h with h | h
  · exact h (hstop.subset (List.mem_cons_self))
  · exact h (hstop.subset (List.mem_cons_of_mem _ List.mem_cons_self))

/-- **Settings files round-trip**, as long as no block comment starts with a
slash. Just such a comment is not skipped to its end. -/
theorem roundTrips_of_layout (table : List Group) (text before comment after : WString)
    (behind : ℕ → WChar) :
    (TableOk table → Layout IsPlainBlock (tokens table) text → RoundTrips table text behind) ∧
      (IsBlock comment →
        ((load (before ++ (Piece.block comment).text ++ after) behind).skipBlock before.length =
          before.length + (Piece.block comment).text.length ↔ comment.head? ≠ some slash)) := by
  refine ⟨fun hok hlayout => ?_, fun hcomment => ?_⟩
  · have hlength := length_le_of_layout hlayout fun t ht => hok.token ht
    obtain ⟨d, hd⟩ := Nat.exists_eq_add_of_le hlength
    have hstart : Filled (load text behind) [] := ⟨rfl, rfl, rfl⟩
    obtain ⟨q, hq, hfilled⟩ := parseLoop_table table (d + 1) (by simpa using hok.length) hok.groups
      hstart ⟨text, hlayout, shows_load text behind⟩
    refine ⟨q, ?_, hfilled.answers hok⟩
    rw [← hq, parse]
    congr 1
    change text.length + 1 + 1 = _
    omega
  · have hshows := shows_load (before ++ (Piece.block comment).text ++ after) behind
    rw [List.append_assoc] at hshows
    have hhere := hshows.drop
    rw [Nat.zero_add] at hhere
    simp only [Piece.text, List.cons_append, List.append_assoc, List.nil_append] at hhere ⊢
    have hiff := skipBlock_eq_iff hhere hcomment
    simpa using hiff

theorem roundTrips_oneGroup :
    RoundTrips oneGroup (space :: slash :: asterisk :: asterisk :: asterisk :: slash :: space ::
      [0x67, colon, openBrace, 0x6B, colon, 0x76, closeBrace]) (fun _ => 0) ∧
    (load ([] ++ (Piece.block [asterisk]).text ++ [space]) fun _ => 0).skipBlock 0 = 5 := by
  have hblock : IsBlock [asterisk] := isBlock_of_ne (by decide +kernel)
  obtain ⟨hround, hskip⟩ := roundTrips_of_layout oneGroup _ [] [asterisk] [space] fun _ => 0
  exact ⟨hround oneGroup_ok (oneGroup_layout [asterisk] ⟨hblock, by decide +kernel⟩),
    (hskip hblock).2 (by decide +kernel)⟩

/-- After `/*/` the parser goes on, and takes the rest of the comment for a
key. -/
theorem slash_comment_not_skipped : ∃ (table : List Group) (text : WString),
    TableOk table ∧ Layout IsBlock (tokens table) text ∧ ¬ RoundTrips table text fun _ => 0 := by
  refine ⟨oneGroup, _, oneGroup_ok, oneGroup_layout [slash, space] ?_, ?_⟩
  · exact isBlock_of_ne (by decide +kernel)
  · rintro ⟨p, hp, -⟩
    have hparse : (load (space :: slash :: asterisk :: [slash, space] ++ asterisk :: slash ::
        space :: [0x67, colon, openBrace, 0x6B, colon, 0x76, closeBrace]) fun _ => 0).parse =
          .error (.expectedColon 0x67) := by rfl
    rw [hparse] at hp
    cases hp

end SettingParser

end NetLib
