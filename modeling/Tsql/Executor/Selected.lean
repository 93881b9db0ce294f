import Tsql.Executor.RowWrites
import Tsql.Lib.Relocate
import Tsql.Storage.Effects
import Tsql.Storage.FreshIds

/-!
# An UPDATE or DELETE changes the selected rows

A statement selects its rows first and then takes them one by one. A DELETE
that succeeds has removed them and nothing else. An UPDATE that succeeds has
put the new row of each of them in its place, or under the new key where its
primary key changed; the table has lost nothing if every row that moved came
to a free id.

A put under a key that is taken fails, so the id can be taken only where the
new key is zero: in autocommit the storage then gives the row the id its
counter shows, and does not look. The counter is behind the rows after it has
WRAPPED: a key of `2^63 - 1` sets it to `-2^63`, and the next key to anything
above that.
-/

namespace Tsql.Executor

open Storage Relocate

variable {env : Env} {sc : JoinScope} {td : TableDef} {table : String} {s s' : Session}

/-! ## The new row -/

/-- The last assignment to a column. -/
def lastSet : List (Nat × Expr) → Nat → Option Expr
  | [], _ => none
  | (i, e) :: sets, j => (lastSet sets j).or (if i = j then some e else none)

/-- **The new row of an UPDATE**: a column of the SET list has the coerced
value of the last expression for it on the OLD row, any other what it had. -/
structure IsSetRow (env : Env) (td : TableDef) (sets : List (Nat × Expr)) (old new : Row) : Prop where
  length : new.length = old.length
  set : ∀ j e, lastSet sets j = some e → ∃ v cv,
    evalValue env (singleTableScope td) e old = .ok v ∧ coerceAt env td j v = .ok cv ∧
      new[j]? = some cv
  kept : ∀ j, lastSet sets j = none → new[j]? = old[j]?

theorem setRow_spec {old row new : Row} {sets : List (Nat × Expr)}
    (h : setRow env sc td old sets row = .ok new) :
    new.length = row.length ∧
      (∀ j e, lastSet sets j = some e → ∃ v cv, evalValue env sc e old = .ok v ∧
        coerceAt env td j v = .ok cv ∧ new[j]? = some cv) ∧
      ∀ j, lastSet sets j = none → new[j]? = row[j]? := by
  induction sets generalizing row with
  | nil =>
    cases h
    refine ⟨rfl, ?_, fun j _ => rfl⟩
    intro j e he
    cases he
  | cons p sets ih =>
    obtain ⟨i, e⟩ := p
    rw [setRow] at h
    obtain ⟨v, hv, h⟩ := bind_eq_ok.mp h
    obtain ⟨cv, hcv, h⟩ := bind_eq_ok.mp h
    split at h
    · next hi =>
      obtain ⟨hlen, hset, hkept⟩ := ih h
      refine ⟨by rw [hlen, List.length_set], ?_, ?_⟩
      · intro j e' he'
        rw [lastSet] at he'
        cases hlast : lastSet sets j with
        | some e'' =>
          rw [hlast, Option.some_or] at he'
          cases he'
          exact hset j e' hlast
        | none =>
          rw [hlast, Option.none_or] at he'
          split at he'
          · next hij =>
            cases he'
            subst hij
            refine ⟨v, cv, hv, hcv, ?_⟩
            rw [hkept i hlast, List.getElem?_set_self hi]
          · cases he'
      · intro j hj
        rw [lastSet, Option.or_eq_none_iff] at hj
        have hij : i ≠ j := by
          intro hij
          rw [if_pos hij] at hj
          cases hj.2
        rw [hkept j hj.1, List.getElem?_set_ne hij]
    · cases h

theorem isSetRow_of_setRow {old new : Row} {sets : List (Nat × Expr)}
    (h : setRow env (singleTableScope td) td old sets old = .ok new) :
    IsSetRow env td sets old new :=
  ⟨(setRow_spec h).1, (setRow_spec h).2.1, (setRow_spec h).2.2⟩

/-! ## The new ids -/

/-- The selected rows by their ids, each with the key it moves to. -/
def moves (env : Env) (td : TableDef) (sets : List (Nat × Expr)) (cands : List (Int64 × Row)) :
    List (Int64 × Option Int64) :=
  cands.map fun c => (c.1, movesTo td c.2 (setRow env (singleTableScope td) td c.2 sets c.2))

/-- **The automatic ids are free**: from a counter and the ids of the rows,
through the moves in order, no row that moves to the key zero gets the id of
another row. -/
def drawsFree : Int64 → Finset Int64 → List (Int64 × Option Int64) → Bool
  | _, _, [] => true
  | next, ids, (_, none) :: ms => drawsFree next ids ms
  | next, ids, (id, some key) :: ms =>
    (decide (key ≠ 0) || decide (next ∉ ids.erase id)) &&
      drawsFree (Session.advance next key) (insert (Session.place next key) (ids.erase id)) ms

/-! ## One turn -/

/-- What a turn of UPDATE has done. -/
structure Turned (s s' : Session) (table : String) (c : Change Int64 Row) (key : Option Int64) :
    Prop where
  sound : s'.Sound
  auto : s'.2.isSome = s.2.isSome
  others : ∀ n, n ≠ table → s'.view n = s.view n
  view : ∃ w, s.view table = some w ∧ s'.view table = some ⟨w.cols, replace w.rows c⟩ ∧
    (w.rows.get? c.key).isSome ∧ (s.2.isSome ∨ key ≠ some 0 → lands w.rows.keys c = true)
  target : s.2 = none → c.target = key.map (Session.place (s.counter table))
  counter : s.2 = none → s'.counter table = key.elim (s.counter table)
    (Session.advance (s.counter table))

theorem apply_self {v : Tables} {name : String} {w : View} (h : v name = some w) (op : RowOp) :
    Tables.apply v [⟨name, op⟩] name = some ⟨w.cols, overlay w.rows op⟩ := by
  simp [Tables.apply, h, opsOn_cons]

theorem apply_other {v : Tables} {name n : String} (h : n ≠ name) (op : RowOp) :
    Tables.apply v [⟨name, op⟩] n = v n := by
  have hop : opsOn n [⟨name, op⟩] = [] := by simp [opsOn_cons, Ne.symm h]
  simp only [Tables.apply, hop, List.foldl_nil]
  cases v n <;> rfl

/-- A call first, and then the rest. -/
theorem run_ask_bind_eq_ok {α : Type} {c : AccessorCall} {f : c.Reply → Exec α} {a : α} :
    ((Prog.ask (I := Accessor) c : Prog Accessor Failure _) >>= f).run Session.handler s = (s', .ok a) ↔
      ∃ s1 r, Session.handler c s = (s1, r) ∧ (f r).run Session.handler s1 = (s', .ok a) := by
  constructor
  · intro h
    exact ⟨_, _, rfl, h⟩
  · rintro ⟨s1, r, hcall, h⟩
    show (f (Session.handler c s).2).run Session.handler (Session.handler c s).1 = _
    rw [hcall]
    exact h

theorem turned_writeBack {id : Int64} {new : Row} (hs : s.Sound)
    (hrun : (writeBack table id new).run Session.handler s = (s', .ok ())) :
    Turned s s' table ⟨id, new, none⟩ none := by
  unfold writeBack at hrun
  obtain ⟨s1, r, hcall, hrun⟩ := run_ask_bind_eq_ok.mp hrun
  cases r with
  | error err => cases hrun
  | ok u =>
    cases hrun
    obtain ⟨hmade, hcounter, w, hw, hfound⟩ := Session.made_update hs hcall
    refine ⟨hmade.sound, hmade.auto, ?_, ⟨w, hw, ?_, hfound, fun _ => rfl⟩, fun _ => rfl,
      fun _ => hcounter⟩
    · intro n hn
      rw [hmade.view, apply_other hn]
    · rw [hmade.view, apply_self hw]
      rfl

theorem turned_moveRow {id key : Int64} {new : Row} (hs : s.Sound)
    (hrun : (moveRow table id key new).run Session.handler s = (s', .ok ())) :
    ∃ dest, Turned s s' table ⟨id, new, some dest⟩ (some key) := by
  unfold moveRow at hrun
  obtain ⟨-, -, hrun⟩ := (scans_fkReferenced ..).reads.run_bind_eq_ok.mp hrun
  obtain ⟨s1, r, hdelete, hrun⟩ := run_ask_bind_eq_ok.mp hrun
  cases r with
  | error err => cases hrun
  | ok u =>
    obtain ⟨s2, r, hput, hrun⟩ := run_ask_bind_eq_ok.mp hrun
    cases r with
    | error err => cases hrun
    | ok dest =>
      cases hrun
      obtain ⟨hmade, hcounter, w, hw, hfound⟩ := Session.made_delete hs hdelete
      obtain ⟨hmade', ⟨w', hw', hfree⟩, hdest⟩ := Session.made_put hmade.sound hput
      have hmid : s1.view table = some ⟨w.cols, w.rows.delete id⟩ := by
        rw [hmade.view, apply_self hw]
        rfl
      rw [hmid] at hw'
      cases hw'
      have hauto : s.2 = none → s1.2 = none := by
        intro hnone
        have := hmade.auto
        rw [hnone] at this
        exact Option.not_isSome_iff_eq_none.mp (by simp [this])
      refine ⟨dest, hmade'.sound, hmade'.auto.trans hmade.auto, ?_, ⟨w, hw, ?_, hfound, ?_⟩, ?_, ?_⟩
      · intro n hn
        rw [hmade'.view, apply_other hn, hmade.view, apply_other hn]
      · rw [hmade'.view, apply_self hmid]
        rfl
      · intro hkey
        have hfree : (w.rows.delete id).get? dest = none := by
          refine hfree (hkey.imp (fun hsome => hmade.auto ▸ hsome) fun hne hzero => ?_)
          exact hne (congrArg some hzero)
        simp only [lands, decide_eq_true_eq, ← GoMap.keys_delete, GoMap.mem_keys]
        rintro ⟨v, hv⟩
        rw [hfree] at hv
        cases hv
      · intro hnone
        rw [(hdest (hauto hnone)).1, hcounter]
        rfl
      · intro hnone
        rw [(hdest (hauto hnone)).2, hcounter]
        rfl

/-- **One turn of UPDATE.** -/
theorem turned_updateRow {sets : List (Nat × Expr)} {c : Int64 × Row} (hs : s.Sound)
    (hrun : (updateRow env sc td table sets c).run Session.handler s = (s', .ok ())) :
    ∃ new target, setRow env sc td c.2 sets c.2 = .ok new ∧
      Turned s s' table ⟨c.1, new, target⟩ (movesTo td c.2 (.ok new)) := by
  unfold updateRow at hrun
  obtain ⟨new, hnew, hrun⟩ := (Reads.lift _).run_bind_eq_ok.mp hrun
  rw [Prog.eval_ofExcept] at hnew
  obtain ⟨-, -, hrun⟩ := (scans_checkFK td new).reads.run_bind_eq_ok.mp hrun
  obtain ⟨key, hkey, hrun⟩ := (Reads.lift _).run_bind_eq_ok.mp hrun
  rw [Prog.eval_ofExcept] at hkey
  have hmoves : movesTo td c.2 (.ok new) = key := by
    rw [movesTo, hkey]
    rfl
  cases key with
  | none =>
    refine ⟨new, none, hnew, ?_⟩
    rw [hmoves]
    exact turned_writeBack hs hrun
  | some key =>
    obtain ⟨dest, hturned⟩ := turned_moveRow hs hrun
    refine ⟨new, some dest, hnew, ?_⟩
    rw [hmoves]
    exact hturned

/-! ## The loop -/

/-- What the loop of UPDATE has done: a list of changes, one for every
candidate. -/
structure Looped (env : Env) (td : TableDef) (sets : List (Nat × Expr)) (s s' : Session)
    (table : String) (w : View) (cands : List (Int64 × Row)) (cs : List (Change Int64 Row)) :
    Prop where
  keys : cs.map Change.key = cands.map Prod.fst
  rows : List.Forall₂ (fun c ch => setRow env (singleTableScope td) td c.2 sets c.2
    = .ok (Change.value ch)) cands cs
  view : s'.view table = some ⟨w.cols, replaceAll w.rows cs⟩
  present : Present w.rows cs
  others : ∀ n, n ≠ table → s'.view n = s.view n
  buffered : s.2.isSome → landsAll w.rows.keys cs = true
  drawn : s.2 = none → landsAll w.rows.keys cs
    = drawsFree (s.counter table) w.rows.keys (moves env td sets cands)

theorem looped_updateRows {sets : List (Nat × Expr)} {cands : List (Int64 × Row)} {w : View}
    (hs : s.Sound) (hw : s.view table = some w)
    (hrun : (updateRows env (singleTableScope td) td table sets cands).run Session.handler s
      = (s', .ok ())) : ∃ cs, Looped env td sets s s' table w cands cs := by
  induction cands generalizing s w with
  | nil =>
    cases hrun
    exact ⟨[], rfl, .nil, hw, trivial, fun _ _ => rfl, fun _ => rfl, fun _ => rfl⟩
  | cons c cands ih =>
    rw [updateRows] at hrun
    obtain ⟨s1, ⟨⟩, hturn, hrun⟩ := Prog.run_bind_eq_ok.mp hrun
    obtain ⟨new, target, hnew, hturned⟩ := turned_updateRow hs hturn
    obtain ⟨w', hw', hview, hfound, hlands⟩ := hturned.view
    rw [hw] at hw'
    cases hw'
    obtain ⟨cs, hloop⟩ := ih hturned.sound hview hrun
    refine ⟨⟨c.1, new, target⟩ :: cs, ?_, .cons hnew hloop.rows, hloop.view,
      ⟨hfound, hloop.present⟩, ?_, ?_, ?_⟩
    · rw [List.map_cons, List.map_cons, hloop.keys]
    · intro n hn
      rw [hloop.others n hn, hturned.others n hn]
    · intro hsome
      rw [landsAll, hlands (.inl hsome), Bool.true_and, ← keys_replace]
      exact hloop.buffered (hturned.auto ▸ hsome)
    · intro hnone
      have hnone1 : s1.2 = none := by
        have := hturned.auto
        rw [hnone] at this
        exact Option.not_isSome_iff_eq_none.mp (by simp [this])
      have htarget := hturned.target hnone
      have hcounter := hturned.counter hnone
      have hcons : moves env td sets (c :: cands)
          = (c.1, movesTo td c.2 (.ok new)) :: moves env td sets cands := by
        rw [moves, List.map_cons, hnew]
        rfl
      rw [landsAll, ← keys_replace, hloop.drawn hnone1, hcounter, keys_replace, hcons]
      have hkey : c.1 ∈ w.rows.keys := by
        obtain ⟨v, hv⟩ := Option.isSome_iff_exists.mp hfound
        exact GoMap.mem_keys.mpr ⟨v, hv⟩
      cases hmoves : movesTo td c.2 (.ok new) with
      | none =>
        rw [hmoves] at htarget
        cases htarget
        simp only [lands, taken, Bool.true_and, drawsFree, Option.elim_none,
          Finset.insert_eq_of_mem hkey]
      | some key =>
        rw [hmoves] at htarget hlands
        cases htarget
        rw [drawsFree]
        by_cases hzero : key = 0
        · simp [lands, taken, hzero, Session.place]
        · rw [hlands (.inr fun h => hzero (Option.some.inj h))]
          simp [taken, hzero]

/-! ## The statements -/

/-- The selected rows are rows of the table, each listed once. -/
structure Selected (w : View) (cands : List (Int64 × Row)) : Prop where
  nodup : (cands.map Prod.fst).Nodup
  rows : ∀ c ∈ cands, w.rows.get? c.1 = some c.2

theorem exists_view_of_tableDef (hs : s.Sound) (h : (tableDef table).eval s.reply = .ok td) :
    ∃ w, s.view table = some w := by
  obtain ⟨-, w, hw, -⟩ := defines_of_tableDef hs.named h
  exact ⟨w, hw⟩

theorem selected_of_collect {where_ : Option Expr} {cands : List (Int64 × Row)} {w : View}
    (hw : s.view table = some w)
    (h : (collectCandidates env table td sc where_).eval s.reply = .ok cands) :
    Selected w cands := by
  obtain ⟨hnodup, hrows⟩ := collectCandidates_sound h
  refine ⟨hnodup, fun c hc => ?_⟩
  rw [← Session.reply_get hw]
  exact hrows c hc

/-- **An UPDATE that succeeds.** -/
theorem execUpdate_ok {u : Update} {res : Result} (hs : s.Sound)
    (hrun : (execUpdate env u).run Session.handler s = (s', .ok res)) :
    ∃ td sets cands w cs, (selectUpdate env u).eval s.reply = .ok (td, sets, cands) ∧
      s.view u.table = some w ∧ Selected w cands ∧
      Looped env td sets s s' u.table w cands cs ∧ res.affected = cands.length := by
  unfold execUpdate at hrun
  obtain ⟨⟨td, sets, cands⟩, hsel, hrun⟩ := (reads_selectUpdate env u).run_bind_eq_ok.mp hrun
  obtain ⟨s1, ⟨⟩, hloop, hrun⟩ := Prog.run_bind_eq_ok.mp hrun
  cases hrun
  obtain ⟨htd, -, where_, -, hcands⟩ := selectUpdate_ok hsel
  obtain ⟨w, hw⟩ := exists_view_of_tableDef hs htd
  obtain ⟨cs, hlooped⟩ := looped_updateRows hs hw hloop
  exact ⟨td, sets, cands, w, cs, hsel, hw, selected_of_collect hw hcands, hlooped, rfl⟩

/-- The rows of the table after an UPDATE. -/
theorem values_update_iff {sets : List (Nat × Expr)} {cands : List (Int64 × Row)} {w : View}
    {cs : List (Change Int64 Row)} (hsel : Selected w cands)
    (h : Looped env td sets s s' table w cands cs) :
    ((replaceAll w.rows cs).values
        = (w.rows.without (cands.map Prod.fst)).values + (cs.map Change.value : Multiset Row)) ↔
      (s.2.isSome ∨ drawsFree (s.counter table) w.rows.keys (moves env td sets cands)) := by
  have hiff := values_replaceAll_iff h.present (by rw [h.keys]; exact hsel.nodup) (by
    rw [h.keys]
    intro k hk
    obtain ⟨c, hc, rfl⟩ := List.mem_map.mp hk
    rw [hsel.rows c hc]
    rfl)
  rw [h.keys] at hiff
  rw [hiff]
  cases hauto : s.2 with
  | none => simp [h.drawn hauto]
  | some t => simp [h.buffered (by simp [hauto])]

/-- The loop of DELETE. -/
theorem deleteRows_ok {cands : List (Int64 × Row)} {w : View} (hs : s.Sound)
    (hw : s.view table = some w)
    (hrun : (deleteRows table cands).run Session.handler s = (s', .ok ())) :
    s'.view table = some ⟨w.cols, w.rows.without (cands.map Prod.fst)⟩ ∧
      ∀ n, n ≠ table → s'.view n = s.view n := by
  induction cands generalizing s w with
  | nil =>
    cases hrun
    exact ⟨hw, fun _ _ => rfl⟩
  | cons c cands ih =>
    rw [deleteRows] at hrun
    obtain ⟨s1, ⟨⟩, hturn, hrun⟩ := Prog.run_bind_eq_ok.mp hrun
    unfold deleteRow at hturn
    obtain ⟨-, -, hturn⟩ := (scans_fkReferenced ..).reads.run_bind_eq_ok.mp hturn
    obtain ⟨s2, r, hdelete, hturn⟩ := run_ask_bind_eq_ok.mp hturn
    cases r with
    | error err => cases hturn
    | ok _ =>
      cases hturn
      obtain ⟨hmade, -, -⟩ := Session.made_delete hs hdelete
      have hview : s1.view table = some ⟨w.cols, w.rows.delete c.1⟩ := by
        rw [hmade.view, apply_self hw]
        rfl
      obtain ⟨hrows, hothers⟩ := ih hmade.sound hview hrun
      refine ⟨hrows, fun n hn => ?_⟩
      rw [hothers n hn, hmade.view, apply_other hn]

/-- **A DELETE that succeeds.** -/
theorem execDelete_ok {d : Delete} {res : Result} (hs : s.Sound)
    (hrun : (execDelete env d).run Session.handler s = (s', .ok res)) :
    ∃ cands w, (selectDelete env d).eval s.reply = .ok cands ∧ s.view d.table = some w ∧
      Selected w cands ∧ s'.view d.table = some ⟨w.cols, w.rows.without (cands.map Prod.fst)⟩ ∧
      res.affected = cands.length ∧ ∀ n, n ≠ d.table → s'.view n = s.view n := by
  unfold execDelete at hrun
  obtain ⟨cands, hsel, hrun⟩ := (reads_selectDelete env d).run_bind_eq_ok.mp hrun
  obtain ⟨s1, ⟨⟩, hloop, hrun⟩ := Prog.run_bind_eq_ok.mp hrun
  cases hrun
  obtain ⟨td, where_, htd, hcands⟩ := selectDelete_ok hsel
  obtain ⟨w, hw⟩ := exists_view_of_tableDef hs htd
  obtain ⟨hrows, hothers⟩ := deleteRows_ok hs hw hloop
  exact ⟨cands, w, hsel, hw, selected_of_collect hw hcands, hrows, rfl, hothers⟩

/-! ## The counter -/

/-- How many of the moves are to the key zero. -/
def zeros (ms : List (Int64 × Option Int64)) : Nat := ms.countP fun m => m.2 = some 0

theorem toInt_succ {n : Int64} (h : n.toInt < 2 ^ 63 - 1) : (n + 1).toInt = n.toInt + 1 := by
  refine toInt_add_one ?_
  rintro rfl
  exact absurd h (by decide)

/-- Where the counter does not wrap it is above the id that was taken, and not
below where it was. -/
theorem toInt_advance {next key : Int64} (hnext : key = 0 → next.toInt < 2 ^ 63 - 1)
    (hkey : key.toInt < 2 ^ 63 - 1) :
    (Session.advance next key).toInt
      = if key = 0 then next.toInt + 1 else max next.toInt (key.toInt + 1) := by
  unfold Session.advance
  by_cases hzero : key = 0
  · rw [if_pos hzero, if_pos hzero, toInt_succ (hnext hzero)]
  · rw [if_neg hzero, if_neg hzero]
    by_cases hge : key ≥ next
    · have hle := Int64.le_iff_toInt_le.mp hge
      rw [if_pos hge, toInt_succ hkey]
      omega
    · have hlt := Int64.lt_iff_toInt_lt.mp (Int64.not_le.mp hge)
      rw [if_neg hge]
      omega

/-- **A counter above the ids draws free ids** as long as it cannot wrap: keys
and counter leave room below `2^63` for the ids that are to be drawn. -/
theorem drawsFree_of_room {next : Int64} {ids : Finset Int64} {ms : List (Int64 × Option Int64)}
    (habove : ∀ id ∈ ids, id < next) (hnext : next.toInt + zeros ms < 2 ^ 63)
    (hkeys : ∀ m ∈ ms, ∀ key, m.2 = some key → key.toInt + zeros ms < 2 ^ 63 - 1) :
    drawsFree next ids ms = true := by
  induction ms generalizing next ids with
  | nil => rfl
  | cons m ms ih =>
    obtain ⟨id, - | key⟩ := m
    · have hzeros : zeros ((id, none) :: ms) = zeros ms := by simp [zeros]
      rw [hzeros] at hnext hkeys
      rw [drawsFree]
      exact ih habove hnext fun m hm => hkeys m (List.mem_cons_of_mem _ hm)
    · have hzeros : zeros ((id, some key) :: ms) = zeros ms + if key = 0 then 1 else 0 := by
        simp [zeros, List.countP_cons]
      rw [hzeros] at hnext hkeys
      have hkey := hkeys _ List.mem_cons_self key rfl
      have hadvance : (Session.advance next key).toInt
          = if key = 0 then next.toInt + 1 else max next.toInt (key.toInt + 1) := by
        refine toInt_advance (fun hzero => ?_) (by omega)
        rw [if_pos hzero] at hnext
        omega
      have hrest : drawsFree (Session.advance next key)
          (insert (Session.place next key) (ids.erase id)) ms = true := by
        refine ih (fun a ha => ?_) ?_ fun m hm k hk => ?_
        · rw [Int64.lt_iff_toInt_lt, hadvance]
          rcases Finset.mem_insert.mp ha with rfl | ha
          · unfold Session.place
            split <;> omega
          · have hlt := Int64.lt_iff_toInt_lt.mp (habove a (Finset.mem_of_mem_erase ha))
            split <;> omega
        · rw [hadvance]
          by_cases hzero : key = 0
          · rw [if_pos hzero] at hnext ⊢
            omega
          · rw [if_neg hzero] at hnext hkey ⊢
            omega
        · have := hkeys m (List.mem_cons_of_mem _ hm) k hk
          omega
      rw [drawsFree, hrest, Bool.and_true, Bool.or_eq_true, decide_eq_true_eq, decide_eq_true_eq]
      refine .inr fun hmem => ?_
      exact absurd (habove next (Finset.mem_of_mem_erase hmem)) Int64.lt_irrefl

/-- **AN UPDATE OR DELETE CHANGES THE SELECTED ROWS**, and no others: but for an
UPDATE in autocommit that moves a row to an id that is taken. -/
theorem dml_changes_selected_iff (env : Env) (s s' : Session) (res : Result) (hs : s.Sound) :
    (∀ u : Update, (execUpdate env u).run Session.handler s = (s', .ok res) →
      ∃ td sets cands news w w',
        (selectUpdate env u).eval s.reply = .ok (td, sets, cands) ∧
        s.view u.table = some w ∧ s'.view u.table = some w' ∧ Selected w cands ∧
        List.Forall₂ (fun c new => IsSetRow env td sets c.2 new) cands news ∧
        (w'.rows.values = (w.rows.without (cands.map Prod.fst)).values + (news : Multiset Row) ↔
          (s.2.isSome ∨ drawsFree (s.counter u.table) w.rows.keys (moves env td sets cands))) ∧
        res.affected = cands.length ∧ ∀ n, n ≠ u.table → s'.view n = s.view n) ∧
    ∀ d : Delete, (execDelete env d).run Session.handler s = (s', .ok res) →
      ∃ cands w w',
        (selectDelete env d).eval s.reply = .ok cands ∧
        s.view d.table = some w ∧ s'.view d.table = some w' ∧ Selected w cands ∧
        w'.rows = w.rows.without (cands.map Prod.fst) ∧
        res.affected = cands.length ∧ ∀ n, n ≠ d.table → s'.view n = s.view n := by
  constructor
  · intro u hrun
    obtain ⟨td, sets, cands, w, cs, hsel, hw, hselected, hlooped, haffected⟩ :=
      execUpdate_ok hs hrun
    refine ⟨td, sets, cands, cs.map Change.value, w, _, hsel, hw, hlooped.view, hselected, ?_,
      values_update_iff hselected hlooped, haffected, hlooped.others⟩
    rw [List.forall₂_map_right_iff]
    exact hlooped.rows.imp fun c ch h => isSetRow_of_setRow h
  · intro d hrun
    obtain ⟨cands, w, hsel, hw, hselected, hview, haffected, hothers⟩ := execDelete_ok hs hrun
    exact ⟨cands, w, _, hsel, hw, hview, hselected, rfl, haffected, hothers⟩

/-- A table `t` with an integer primary key and another integer, and four rows:
the last is not selected by `id < 7`. -/
def wrapRows : Engine :=
  (Run.run Sys.exec {} (.createTable "t" [{ name := "id", type := .int, primary := true },
      { name := "a", type := .int }] ::
    [(1, 9223372036854775807), (2, 6), (3, 0), (7, 5)].map fun p =>
      .put "t" p.1 [.int p.1, .int p.2])).eng

/-- `UPDATE t SET id = a WHERE id < n`. -/
def keyFromColumn (n : Int64) : Update :=
  { table := "t", sets := [⟨"id", .colRef "" "a"⟩],
    where_ := some (.cmp .lt (.colRef "" "id") (.lit (.int n))) }

/-- The same in a transaction. -/
def wrapTxn : Session := (wrapRows.begin.1, some wrapRows.begin.2)

theorem wrapTxn_sound : wrapTxn.Sound :=
  Session.sound_begin (Sys.indexed_run _) (Sys.named_run _)

theorem dml_changes_selected_iff_inTxn :
    ((execUpdate epochEnv (keyFromColumn 7)).run Session.handler wrapTxn).2
      = .ok { affected := 3 } ∧
    ∃ td sets cands news w w',
      (selectUpdate epochEnv (keyFromColumn 7)).eval wrapTxn.reply = .ok (td, sets, cands) ∧
      wrapTxn.view "t" = some w ∧
      ((execUpdate epochEnv (keyFromColumn 7)).run Session.handler wrapTxn).1.view "t" = some w' ∧
      List.Forall₂ (fun c new => IsSetRow epochEnv td sets c.2 new) cands news ∧
      w'.rows.values = (w.rows.without (cands.map Prod.fst)).values + (news : Multiset Row) := by
  have hok : ((execUpdate epochEnv (keyFromColumn 7)).run Session.handler wrapTxn).2
      = .ok { affected := 3 } := by decide +kernel
  obtain ⟨td, sets, cands, news, w, w', hsel, hw, hw', -, hnews, hiff, -⟩ :=
    (dml_changes_selected_iff epochEnv wrapTxn _ _ wrapTxn_sound).1 (keyFromColumn 7)
      (Prod.ext rfl hok)
  exact ⟨hok, td, sets, cands, news, w, w', hsel, hw, hw', hnews, hiff.mpr (.inl rfl)⟩

/-- **A row is lost that was not selected.** The key `2^63 - 1` wraps the
counter, the key 6 sets it to 7, and the key zero draws the id 7. The counter
was above all ids. -/
theorem update_replaces_unselected :
    (∀ p ∈ (wrapRows.rowsOf "t").ascending, p.1 < Session.counter (wrapRows, none) "t") ∧
    ((execUpdate epochEnv (keyFromColumn 7)).run Session.handler (wrapRows, none)).2
      = .ok { affected := 3 } ∧
    (((execUpdate epochEnv (keyFromColumn 7)).run Session.handler (wrapRows, none)).1.1.rowsOf
        "t").ascending
      = [(6, [.int 6, .int 6]), (7, [.int 0, .int 0]),
         (9223372036854775807, [.int 9223372036854775807, .int 9223372036854775807])] := by
  decide +kernel

end Tsql.Executor
