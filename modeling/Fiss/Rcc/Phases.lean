import Fiss.Rcc.Inputs

/-! The two executions of a transaction's pieces, at dispatch and at commit, against each other:
    which values the commit execution consumes, and what the dispatch leaves in the tables. -/

namespace Fiss.Rcc
open List Work Site Pass
open Option (map_eq_some_iff some.inj bind_eq_some_iff map_some)
open SimpleCommand (mark offer offers clear input rootType type)

/-! ### Which values the commit execution consumes -/

/-- The piece is run, once it has its inputs, and its handler returns the variable `x` in some run
    on such inputs. -/
def Produces (site : Site) (c : SimpleCommand) (x : ℕ) : Prop :=
  site.defer c.rootType c.type ≠ .fake ∧ ∃ o me a out a',
    (c.offers o).input.pieceInputReady = true ∧
    Runner.exec me (site.handler c.rootType c.type (c.offers o).input) a = some (out, a') ∧
    (out.find x).isSome

theorem Produces.congr {site : Site} {b c : SimpleCommand} {x : ℕ} (h : Produces site b x)
    (hclear : b.clear = c.clear) : Produces site c x := by
  have hinput : b.input = c.input :=
    show b.clear.input = c.clear.input from congrArg input hclear
  have hroot : b.rootType = c.rootType :=
    show b.clear.rootType = c.clear.rootType from congrArg rootType hclear
  have htype : b.type = c.type :=
    show b.clear.type = c.clear.type from congrArg type hclear
  obtain ⟨hreal, o, me, a, out, a', hready, hexec, hout⟩ := h
  rw [input_offers_congr hinput o] at hready hexec
  rw [hroot, htype] at hreal hexec
  exact ⟨hreal, o, me, a, out, a', hready, hexec, hout⟩

/-- Piece `i` against what it was at the start, `c0`: what it missed then it misses, or it has it
    from a run of another piece. -/
structure Grown (runs : List Ran) (i : ℕ) (c0 c : SimpleCommand) : Prop where
  rootType : c.rootType = c0.rootType
  type : c.type = c0.type
  input : ∃ o, c.input = (c0.offers o).input
  ready : c0.input.pieceInputReady = false → c.input.pieceInputReady = true → ∀ x, ¬ c.missing x
  source : ∀ x ∈ c0.input.keys, c0.missing x → c.missing x ∨
    ∃ r ∈ runs, r.piece ≠ i ∧ ∃ v, r.output.find x = some v ∧ c.holds x v

/-- The pieces against what they were at the start, and the runs against the handlers. -/
structure Fed (site : Site) (w0 w : Work) (runs : List Ran) : Prop where
  pieces : ∀ i c, w.dtxn.dreqs[i]? = some c →
    ∃ c0, w0.dtxn.dreqs[i]? = some c0 ∧ Grown runs i c0 c
  produced : ∀ r ∈ runs, ∃ c0, w0.dtxn.dreqs[r.piece]? = some c0 ∧
    ∀ x, (r.output.find x).isSome → Produces site c0 x

section Grown

variable {runs runs' : List Ran} {i : ℕ} {c0 c : SimpleCommand} {o : List (ℕ × Value)}

theorem Grown.keys (h : Grown runs i c0 c) : c.input.keys = c0.input.keys := by
  obtain ⟨o, ho⟩ := h.input
  rw [ho, keys_offers]

theorem Grown.refl (c : SimpleCommand) : Grown runs i c c :=
  ⟨rfl, rfl, ⟨[], rfl⟩, fun h h' => Bool.noConfusion (h.symm.trans h'), fun _ _ h => .inl h⟩

theorem Grown.mark (h : Grown runs i c0 c) : Grown runs i c0 c.mark :=
  ⟨h.rootType, h.type, h.input, h.ready, h.source⟩

theorem Grown.offers (h : Grown runs i c0 c) (hsub : runs ⊆ runs')
    (ho : c.input.pieceInputReady = false → ∀ x v, o.lookup x = some v →
      ∃ r ∈ runs', r.piece ≠ i ∧ r.output.find x = some v) : Grown runs' i c0 (c.offers o) := by
  have heq := offers_eq c o
  obtain ⟨l, hl⟩ := h.input
  refine ⟨by rw [heq]; exact h.rootType, by rw [heq]; exact h.type,
    ⟨l ++ o, input_offers_append hl o⟩, fun h0 hready => ?_, fun x hx h0 => ?_⟩
  · cases hc : c.input.pieceInputReady with
    | true => rw [offers_of_ready hc]; exact h.ready h0 hc
    | false => exact fun x => not_missing_of_readied hc hready
  · rcases h.source x hx h0 with hmiss | ⟨r, hr, hri, v, hv, hhold⟩
    · cases hc : c.input.pieceInputReady with
      | true => rw [offers_of_ready hc]; exact .inl hmiss
      | false =>
        rcases offers_missing hmiss (h.keys ▸ hx) o with hmiss | ⟨v, hv, hhold⟩
        · exact .inl hmiss
        · obtain ⟨r, hr, hri, hrv⟩ := ho hc x v hv
          exact .inr ⟨r, hr, hri, v, hrv, hhold⟩
    · exact .inr ⟨r, hsub hr, hri, v, hv, offers_holds hhold⟩

end Grown

section Commit

variable {site : Site} {id i : ℕ} {st st' : Pass} {w0 w w' : Work} {runs new : List Ran}
  {c : SimpleCommand} {out : Dict ℕ Value} {o : List (ℕ × Value)}
  {ret : Dict ℕ (Dict ℕ Value)}

theorem executes_offered (h : Executes site id i st st' c out o new) {x : ℕ} {v : Value}
    (hv : o.lookup x = some v) : ∃ r ∈ new, r.piece = i ∧ r.output.find x = some v := by
  rcases h.offered with rfl | rfl
  · cases hv
  · rcases h.handler with ⟨-, rfl, -, -⟩ | ⟨-, ⟨ships, rfl, -⟩, -⟩
    · cases hv
    · exact ⟨_, mem_singleton_self _, rfl, hv⟩

theorem executes_fed (hst : Fed site w0 st.work runs) (h : Executes site id i st st' c out o new) :
    Fed site w0 st'.work (runs ++ new) := by
  refine ⟨fun j c' hc' => ?_, fun r hr => ?_⟩
  · rw [h.dreqs, getElem_filedAt] at hc'
    obtain ⟨cj, hcj, rfl⟩ := map_eq_some_iff.mp hc'
    obtain ⟨c0, hc0, hg⟩ := hst.pieces j cj hcj
    refine ⟨c0, hc0, ?_⟩
    rcases eq_or_ne i j with rfl | hij
    · rw [if_pos rfl]
      refine hg.mark.offers (subset_append_left _ _) fun hready => ?_
      -- the piece that was executed is ready and takes nothing
      obtain rfl := some.inj (hcj.symm.trans h.piece)
      exact absurd (h.ready.symm.trans hready) (by simp)
    · rw [if_neg hij]
      refine hg.offers (subset_append_left _ _) fun _ x v hv => ?_
      obtain ⟨r, hr, hri, hrv⟩ := executes_offered h hv
      exact ⟨r, mem_append_right _ hr, hri ▸ hij, hrv⟩
  · rcases mem_append.mp hr with hr | hr
    · exact hst.produced r hr
    · obtain ⟨c0, hc0, hg⟩ := hst.pieces i c h.piece
      rcases h.handler with ⟨-, -, rfl, -⟩ | ⟨hreal, ⟨ships, rfl, -⟩, a, ha, -⟩
      · exact absurd hr not_mem_nil
      · obtain rfl := mem_singleton.mp hr
        obtain ⟨l, hl⟩ := hg.input
        rw [hg.rootType, hg.type] at hreal ha
        rw [hl] at ha
        exact ⟨c0, hc0, fun x hx => ⟨hreal, l, _, _, out, a, hl ▸ h.ready, ha, hx⟩⟩

/-- Before a commit execution: a variable that one piece consumes and another produces is still
    missing, and has one producer. -/
structure Unfed (site : Site) (dreqs : List SimpleCommand) : Prop where
  missing : ∀ (i j : ℕ) (ci cj : SimpleCommand) (x : ℕ), i ≠ j → dreqs[i]? = some ci →
    dreqs[j]? = some cj → x ∈ ci.input.keys → Produces site cj x →
      ci.input.pieceInputReady = false ∧ ci.missing x
  one : ∀ (i j k : ℕ) (ci cj ck : SimpleCommand) (x : ℕ), i ≠ j → i ≠ k → dreqs[i]? = some ci →
    dreqs[j]? = some cj → dreqs[k]? = some ck → x ∈ ci.input.keys → Produces site cj x →
      Produces site ck x → j = k

/-- In a commit execution, each variable that a piece consumes and another one produces has the
    value the producer returned in this execution. -/
theorem commit_consumes_commit_values (h : w.commitExecAllRdy site id = some (w', ret))
    (hun : Unfed site w.dtxn.dreqs) : ∃ runs, w'.store.ran = w.store.ran ++ runs ∧
      ∀ r ∈ runs, ∀ r' ∈ runs, r.piece ≠ r'.piece → ∀ x ∈ r.input.keys,
        (r'.output.find x).isSome → r.input.values.find x = r'.output.find x := by
  obtain ⟨st, hst, rfl, -⟩ := commitExecAllRdy_eq_some h
  obtain ⟨runs, hrec, hfed⟩ := restart_record (I := Fed site ⟨w.dtxn.restart, w.store⟩)
    (fun _ _ _ _ _ _ _ _ _ _ hi hex => executes_fed hi hex)
    ⟨fun i c hc => ⟨c, hc, Grown.refl c⟩, forall_mem_nil _⟩ hst
  refine ⟨runs, hrec.ran, fun r hr r' hr' hne x hx hx' => ?_⟩
  obtain ⟨-, -, c, hc, -, hready, hin⟩ := hrec.piece r hr
  obtain ⟨c0, hc0, hg⟩ := hfed.pieces r.piece c hc
  obtain ⟨c0', hc0', hprod'⟩ := hfed.produced r' hr'
  rw [← hin, hg.keys] at hx
  obtain ⟨b, hb, rfl⟩ := restart_piece hc0
  obtain ⟨b', hb', rfl⟩ := restart_piece hc0'
  have hp' := (hprod' x hx').congr (c := b') rfl
  obtain ⟨hwait, hmiss⟩ := hun.missing _ _ b b' x hne hb hb' hx hp'
  rcases hg.source x hx hmiss with hmiss | ⟨r'', hr'', hpiece, v, hv, hhold⟩
  · exact absurd hmiss (hg.ready hwait hready x)
  · -- the run the value came from is the producer's
    obtain ⟨c0'', hc0'', hprod''⟩ := hfed.produced r'' hr''
    obtain ⟨b'', hb'', rfl⟩ := restart_piece hc0''
    have hsame : r'.piece = r''.piece := hun.one _ _ _ b b' b'' x hne (Ne.symm hpiece) hb hb'
      hb'' hx hp' ((hprod'' x (by rw [hv]; rfl)).congr rfl)
    obtain rfl : r' = r'' := inj_on_of_nodup_map hrec.once hr' hr'' hsame
    rw [← hin, hhold.2, hv]

/-- Piece type 1 returns the value of a cell as variable 7; type 2 takes it. -/
def feedSite : Site :=
  { parId := 0
    handler := fun _ type _ =>
      if type = 1 then .read 0 0 .instant fun v => .done ⟨[(7, v.getD (.i32 0))]⟩ else .done {} }

def feedTxn : RccDTxn :=
  { dreqs :=
      [{ innId := 0, type := 1, waitingVarParMap := ⟨[(7, [0])]⟩ },
        { innId := 1, type := 2, input := ⟨{7}, {}, ⟨[(7, false)]⟩, false⟩ }] }

def cellStore (n : ℤ) : Store := { rows := [⟨0, [.i32 n]⟩] }

theorem feed_unfed : Unfed feedSite feedTxn.dreqs := by
  have hprod : ∀ (j : ℕ) (cj : SimpleCommand) (x : ℕ), feedTxn.dreqs[j]? = some cj →
      Produces feedSite cj x → j = 0 := by
    rintro (_ | _ | j) cj x hj ⟨-, o, me, a, out, a', -, h, hx⟩
    · rfl
    · obtain rfl := some.inj hj
      obtain ⟨rfl, -⟩ := Prod.mk.inj (some.inj h)
      cases hx
    · cases hj
  refine ⟨fun i j ci cj x hij hi hj hx hp => ?_, fun i j k ci cj ck x _ _ _ hj hk _ hpj hpk =>
    (hprod j cj x hj hpj).trans (hprod k ck x hk hpk).symm⟩
  obtain rfl := hprod j cj x hj hp
  match i, hi with
  | 0, _ => exact absurd rfl hij
  | 1, hi =>
    obtain rfl := some.inj hi
    obtain rfl : x = 7 := mem_singleton.mp hx
    exact ⟨rfl, rfl⟩

theorem commit_consumes_commit_values_feed :
    (commitExecAllRdy feedSite 5 ⟨feedTxn, cellStore 2⟩).map (fun r =>
      r.1.store.ran.map Ran.piece) = some [0, 1] ∧
    ∃ w' ret runs, commitExecAllRdy feedSite 5 ⟨feedTxn, cellStore 2⟩ = some (w', ret) ∧
      w'.store.ran = runs ∧ ∀ r ∈ runs, ∀ r' ∈ runs, r.piece ≠ r'.piece → ∀ x ∈ r.input.keys,
        (r'.output.find x).isSome → r.input.values.find x = r'.output.find x := by
  refine ⟨by decide, ?_⟩
  have hsome : (commitExecAllRdy feedSite 5 ⟨feedTxn, cellStore 2⟩).isSome = true := by decide
  obtain ⟨⟨w', ret⟩, h⟩ := Option.isSome_iff_exists.mp hsome
  obtain ⟨runs, hran, hruns⟩ := commit_consumes_commit_values h feed_unfed
  exact ⟨w', ret, runs, h, hran, hruns⟩

theorem recursive_settles_feed :
    ∃ st', Work.recursiveExecuteReadyPieces feedSite 5 ⟨feedTxn.restart, cellStore 2⟩ = some st' ∧
      ∀ c ∈ st'.work.dtxn.dreqs, c.runnable = false := by
  refine (Option.isSome_iff_exists.mp ?_).imp fun _ h => ⟨h, recursive_settles h⟩
  decide

/-- Dispatched when the cell holds 1 and committed when it holds 2, the second piece consumes 1. -/
theorem commit_consumes_dispatch_value :
    ((dispatchExec feedSite 5 ⟨feedTxn, cellStore 1⟩).bind fun w =>
      commitExecAllRdy feedSite 5 ⟨w.dtxn, cellStore 2⟩).map (fun r =>
        r.1.store.ran.map fun r => (r.piece, r.phase, r.input.values.find 7, r.output.find 7)) =
      some [(0, .commit, none, some (.i32 2)), (1, .commit, some (.i32 1), none)] := by
  decide

end Commit

/-! ### What the dispatch leaves in the tables -/

/-- A handler that is a sequence of reads, deferred writes and `n` insertions. -/
inductive Prog.Sequence : ℕ → Prog → Prop
  | done (output : Dict ℕ Value) : Sequence 0 (.done output)
  | read {n : ℕ} (row col : ℕ) (hint : Hint) {k : Option Value → Prog} :
      (∀ v, Sequence n (k v)) → Sequence n (.read row col hint k)
  | write {n : ℕ} (row col : ℕ) (value : Value) {k : Prog} :
      Sequence n k → Sequence n (.write row col value .deferred k)
  | insert {n : ℕ} (table : ℕ) (cols : List Value) {k : Prog} :
      Sequence n k → Sequence (n + 1) (.insert table cols k)

/-- Every handler of the site is a sequence, with `inserts` insertions. -/
def Site.Sequential (site : Site) (inserts : ℕ → ℕ → ℕ) : Prop :=
  ∀ rootType type input, (site.handler rootType type input).Sequence (inserts rootType type)

theorem writeColumn_dispatch_deferred {me : Runner} {a a' : Acc} {row col : ℕ} {v : Value}
    (hph : me.phase = .dispatch) (h : me.writeColumn row col v .deferred a = some a') :
    a'.store.rows = a.store.rows := by
  obtain ⟨u, -, h⟩ := bind_eq_some_iff.mp h
  simp only [hph, Option.some.injEq] at h
  subst h
  simp

theorem exec_sequence_rows {me : Runner} {n : ℕ} {p : Prog} (hseq : p.Sequence n)
    (hph : me.phase = .dispatch) {a a' : Acc} {out : Dict ℕ Value}
    (h : me.exec p a = some (out, a')) :
    ∃ extra, a'.store.rows = a.store.rows ++ extra ∧ extra.length = n := by
  induction hseq generalizing a with
  | done output =>
    obtain ⟨-, rfl⟩ := Prod.mk.inj (some.inj h)
    exact ⟨[], (append_nil _).symm, rfl⟩
  | read row col hint _ ih =>
    obtain ⟨r, hr, h⟩ := bind_eq_some_iff.mp h
    obtain ⟨extra, hrows, hlen⟩ := ih r.1 h
    exact ⟨extra, by rw [hrows, Runner.readColumn_rows hr], hlen⟩
  | write row col v _ ih =>
    obtain ⟨b, hb, h⟩ := bind_eq_some_iff.mp h
    obtain ⟨extra, hrows, hlen⟩ := ih h
    exact ⟨extra, by rw [hrows, writeColumn_dispatch_deferred hph hb], hlen⟩
  | insert table cols _ ih =>
    obtain ⟨extra, hrows, hlen⟩ := ih (a := me.insertRow table cols a) h
    refine ⟨⟨table, cols⟩ :: extra, ?_, by rw [length_cons, hlen]⟩
    rw [hrows, Runner.insertRow, append_assoc, singleton_append]

section Dispatch

variable {site : Site} {inserts : ℕ → ℕ → ℕ} {id i : ℕ} {st st' : Pass} {w0 w w' : Work}
  {c : SimpleCommand} {out : Dict ℕ Value} {o : List (ℕ × Value)} {new : List Ran}

/-- The insertions the piece makes when it is executed. -/
def Site.cost (site : Site) (inserts : ℕ → ℕ → ℕ) (c : SimpleCommand) : ℕ :=
  if site.defer c.rootType c.type = .fake then 0 else inserts c.rootType c.type

/-- The insertions of the pieces that are still to be executed. -/
def Site.pending (site : Site) (inserts : ℕ → ℕ → ℕ) (dreqs : List SimpleCommand) : ℕ :=
  (dreqs.map fun c => if c.localExecuted then 0 else site.cost inserts c).sum

theorem pending_singleton (c : SimpleCommand) :
    site.pending inserts [c] = if c.localExecuted then 0 else site.cost inserts c := by
  rw [pending, map_singleton, sum_singleton]

theorem cost_offers (c : SimpleCommand) (o : List (ℕ × Value)) :
    site.cost inserts (c.offers o) = site.cost inserts c := by
  rw [offers_eq]; rfl

theorem pending_modify_mark {dreqs : List SimpleCommand} (hc : dreqs[i]? = some c)
    (hno : c.localExecuted = false) :
    site.pending inserts (dreqs.modify i mark) + site.cost inserts c =
      site.pending inserts dreqs := by
  induction dreqs generalizing i with
  | nil => simp at hc
  | cons a l ih =>
    cases i with
    | zero =>
      obtain rfl : a = c := by simpa using hc
      simp [pending, mark, hno, Nat.add_comm]
    | succ i =>
      have hl := ih (i := i) (by simpa using hc)
      rw [modify_succ_cons]
      simp only [pending, map_cons, sum_cons] at hl ⊢
      omega

theorem pending_filedAt (site : Site) (inserts : ℕ → ℕ → ℕ) (o : List (ℕ × Value))
    {dreqs : List SimpleCommand} (hc : dreqs[i]? = some c) (hno : c.localExecuted = false) :
    site.pending inserts (filedAt dreqs i o) + site.cost inserts c = site.pending inserts dreqs := by
  rw [← pending_modify_mark hc hno, filedAt, pending, map_map]
  refine congrArg (fun f => (map f _).sum + _) (funext fun c => ?_)
  simp only [Function.comp, cost_offers, localExecuted_offers]

/-- The insertions made so far and those to come. -/
def Inserted (site : Site) (inserts : ℕ → ℕ → ℕ) (w0 w : Work) : Prop :=
  ∃ extra, w.store.rows = w0.store.rows ++ extra ∧
    extra.length + site.pending inserts w.dtxn.dreqs = site.pending inserts w0.dtxn.dreqs

section
variable (hseq : site.Sequential inserts)
include hseq

theorem handlerRan_rows (hph : w.dtxn.phase = .dispatch)
    {rows : List Row} (h : HandlerRan site id c w out rows) :
    ∃ extra, rows = w.store.rows ++ extra ∧ extra.length = inserts c.rootType c.type := by
  obtain ⟨a, ha, rfl⟩ := h
  exact exec_sequence_rows (hseq c.rootType c.type c.input) hph ha

theorem executes_inserted (hph : st.work.dtxn.phase = .dispatch)
    (hst : Inserted site inserts w0 st.work) (h : Executes site id i st st' c out o new) :
    Inserted site inserts w0 st'.work := by
  obtain ⟨extra, hrows, hsum⟩ := hst
  have hpend := pending_filedAt site inserts o h.piece h.first
  rw [← h.dreqs] at hpend
  rcases h.handler with ⟨hfake, -, -, hsame⟩ | ⟨hfake, -, hran⟩
  · rw [cost, if_pos hfake] at hpend
    exact ⟨extra, hsame.trans hrows, by omega⟩
  · rw [cost, if_neg hfake] at hpend
    obtain ⟨more, hmore, hlen⟩ := handlerRan_rows hseq hph hran
    refine ⟨extra ++ more, by rw [hmore, hrows, append_assoc], ?_⟩
    rw [length_append, hlen]
    omega

theorem recursive_inserted (hph : w.dtxn.phase = .dispatch)
    (h : w.recursiveExecuteReadyPieces site id = some st') : Inserted site inserts w st'.work := by
  refine (recursive_inv (I := fun w' => Rework w w' ∧ Inserted site inserts w w')
    (fun st i st' hst hp => ⟨piece_rework hst.1 hp, ?_⟩)
    ⟨Rework.refl w, [], (append_nil _).symm, Nat.zero_add _⟩ h).2
  rcases piece_executes hp with ⟨rfl, -⟩ | ⟨c, out, o, new, hex⟩
  · exact hst.2
  · exact executes_inserted hseq (hst.1.phase.trans hph) hst.2 hex

theorem checkPieces_rows (hph : w.dtxn.phase = .dispatch) :
    ∀ {n : ℕ} {w' : Work}, run (checkPiece site id) w (range n) = some w' →
      w'.dtxn.dreqs = w.dtxn.dreqs ∧ w'.dtxn.phase = .dispatch ∧
      ∃ extra, w'.store.rows = w.store.rows ++ extra ∧
        extra.length = site.pending inserts (w.dtxn.dreqs.take n)
  | 0, w', h => by
    obtain rfl := some.inj h
    exact ⟨rfl, hph, [], (append_nil _).symm, rfl⟩
  | n + 1, w', h => by
    rw [range_succ, run_concat] at h
    obtain ⟨u, hu, hpiece⟩ := h
    obtain ⟨hdreqs, hphu, extra, hrows, hlen⟩ := checkPieces_rows hph hu
    have htake : site.pending inserts (w.dtxn.dreqs.take (n + 1)) =
        site.pending inserts (w.dtxn.dreqs.take n) +
          site.pending inserts (u.dtxn.dreqs[n]?).toList := by
      rw [take_add_one, pending, map_append, sum_append, hdreqs]
      rfl
    rw [htake]
    rcases checkPiece_cases hpiece with ⟨rfl, hex⟩ | ⟨c, out, hc, hno, htype, hrun⟩
    · refine ⟨hdreqs, hphu, extra, hrows, ?_⟩
      cases hc : w'.dtxn.dreqs[n]? with
      | none => exact hlen
      | some c => rw [hlen, Option.toList_some, pending_singleton, if_pos (hex c hc), Nat.add_zero]
    · obtain ⟨a, ha, hd, hadd, -⟩ := runHandler_spec hrun
      obtain ⟨more, hmore, hmlen⟩ := handlerRan_rows hseq hphu ⟨a, ha, hadd⟩
      have hcost : site.cost inserts c = inserts c.rootType c.type := by
        rw [cost, if_neg]
        rw [htype, site.payment5]
        exact fun h => by cases h
      refine ⟨by rw [hd]; exact hdreqs, by rw [hd]; exact hphu, extra ++ more,
        by rw [hmore, hrows, append_assoc], ?_⟩
      rw [length_append, hlen, hmlen, hc, Option.toList_some, pending_singleton, hno, hcost]
      rfl

theorem dispatchExec_rows (h : w.dispatchExec site id = some w') :
    ∃ extra, w'.store.rows = w.store.rows ++ extra ∧
      extra.length = site.pending inserts w.dtxn.dreqs := by
  obtain ⟨st, hst, h⟩ := bind_eq_some_iff.mp h
  obtain ⟨extra, hrows, hsum⟩ := recursive_inserted hseq rfl hst
  obtain ⟨-, -, more, hmore, hlen⟩ :=
    checkPieces_rows hseq ((recursive_rework hst).phase.trans rfl) h
  rw [take_length] at hlen
  refine ⟨extra ++ more, by rw [hmore, hrows, append_assoc], ?_⟩
  rw [length_append, hlen, hsum]
  rfl

end

/-- No piece that a dispatch would execute makes an insertion. -/
def NoInserts (site : Site) (inserts : ℕ → ℕ → ℕ) (dreqs : List SimpleCommand) : Prop :=
  ∀ c ∈ dreqs, c.localExecuted = false → site.defer c.rootType c.type ≠ .fake →
    inserts c.rootType c.type = 0

theorem pending_eq_zero {dreqs : List SimpleCommand} :
    site.pending inserts dreqs = 0 ↔ NoInserts site inserts dreqs := by
  rw [pending, sum_eq_zero_iff, forall_mem_map]
  refine forall₂_congr fun c _ => ?_
  simp only [cost]
  cases c.localExecuted with
  | true => simp
  | false =>
    simp only [Bool.false_eq_true, if_false, forall_const]
    split
    · next hfake => simp [hfake]
    · next hfake => simp [hfake]

end Dispatch

/-! ### The commit execution after a dispatch -/

section

variable {site : Site} {inserts : ℕ → ℕ → ℕ} {id i : ℕ} {st st' : Pass} {w0 w w' u v : Work}
  {c : SimpleCommand} {out : Dict ℕ Value} {o : List (ℕ × Value)} {new : List Ran}

/-- No waiting piece lacks a variable that another local piece produces. -/
def Unsupplied (site : Site) (dreqs : List SimpleCommand) : Prop :=
  ∀ (i j : ℕ) (ci cj : SimpleCommand) (x : ℕ), i ≠ j → dreqs[i]? = some ci →
    dreqs[j]? = some cj → ci.input.pieceInputReady = false → x ∈ ci.input.keys →
    (ci.input.inputVarReady.find x).getD false = false → ¬ Produces site cj x

/-- Two committing executions with the same pieces over the same tables. -/
structure Alike (st st' : Pass) : Prop where
  dreqs : st.work.dtxn.dreqs = st'.work.dtxn.dreqs
  rows : st.work.store.rows = st'.work.store.rows
  phase : st.work.dtxn.phase = .commit
  phase' : st'.work.dtxn.phase = .commit
  needCheck : st.needCheck = st'.needCheck

theorem execSimpleCmd_alike (hd : u.dtxn.dreqs = v.dtxn.dreqs) (hrows : u.store.rows = v.store.rows)
    (hu : u.dtxn.phase = .commit) (hv : v.dtxn.phase = .commit)
    (h : u.execSimpleCmd site id i c = some (out, w)) :
    ∃ w', v.execSimpleCmd site id i c = some (out, w') ∧ w.dtxn.dreqs = w'.dtxn.dreqs ∧
      w.store.rows = w'.store.rows ∧ w.dtxn.phase = .commit ∧ w'.dtxn.phase = .commit := by
  rcases execSimpleCmd_cases h with ⟨hfake, rfl, rfl⟩ | ⟨hfake, h⟩
  · exact ⟨v, by rw [execSimpleCmd, if_pos hfake], hd, hrows, hu, hv⟩
  · obtain ⟨a, ha, hwd, hwrows, -⟩ := runHandler_spec h
    rw [hu] at ha
    obtain ⟨b, hb, hab⟩ := Runner.exec_commit_congr rfl
      (b := ⟨v.store, v.dtxn.parents⟩) hrows ha
    obtain ⟨w', hw'⟩ : ∃ w', v.runHandler site id i c = some (out, w') := by
      rw [runHandler, hv, hb]
      exact ⟨_, rfl⟩
    obtain ⟨b', hb', hwd', hwrows', -⟩ := runHandler_spec hw'
    rw [hv, hb] at hb'
    obtain ⟨-, rfl⟩ := Prod.mk.inj (some.inj hb')
    refine ⟨w', by rw [execSimpleCmd, if_neg hfake, hw'], ?_, ?_, ?_, ?_⟩
    · rw [hwd, hwd']; exact hd
    · rw [hwrows, hwrows', hab]
    · rw [hwd]; exact hu
    · rw [hwd']; exact hv

theorem piece_alike {st1 st2 st1' : Pass} (h : Alike st1 st2)
    (hp : st1.piece site id i = some st1') :
    ∃ st2', st2.piece site id i = some st2' ∧ Alike st1' st2' := by
  rcases piece_cases hp with ⟨rfl, hno⟩ | ⟨c, out, w, hc, hrun, hexec, rfl⟩
  · refine ⟨st2, ?_, h⟩
    rw [piece]
    split
    · rfl
    · next c hc => rw [hno c (by rw [h.dreqs]; exact hc)]; rfl
  · obtain ⟨w', hexec', hd, hrows, hw, hw'⟩ :=
      execSimpleCmd_alike h.dreqs h.rows h.phase h.phase' hexec
    refine ⟨st2.file site i c out w', ?_, ?_, hrows, hw, hw', ?_⟩
    · rw [piece, ← h.dreqs, hc]
      simp only [hrun, hexec', if_true, map_some]
    · simp only [file, hd]
    · simp only [file, hd, h.needCheck]

theorem sweep_alike {st1 st2 t1 : Pass} (hA : Alike st1 st2) (h : st1.sweep site id = some t1) :
    ∃ t2, st2.sweep site id = some t2 ∧ Alike t1 t2 := by
  have hsim : ∀ (s t : Pass) (i : ℕ) (s' : Pass), Alike s t → piece site id s i = some s' →
      ∃ t', piece site id t i = some t' ∧ Alike s' t' := fun _ _ _ _ hR hs => piece_alike hR hs
  have hstart : Alike { st1 with needCheck := false } { st2 with needCheck := false } :=
    ⟨hA.dreqs, hA.rows, hA.phase, hA.phase', rfl⟩
  rw [sweep, ← hA.dreqs]
  exact run_sim hsim hstart h

theorem passes_alike : ∀ {n : ℕ} {st1 st2 st1' : Pass}, Alike st1 st2 →
    passes (sweep site id) needCheck n st1 = some st1' →
    ∃ st2', passes (sweep site id) needCheck n st2 = some st2' ∧ Alike st1' st2'
  | 0, _, st2, _, hA, h => ⟨st2, rfl, some.inj h ▸ hA⟩
  | n + 1, st1, st2, _, hA, h => by
    obtain ⟨t1, ht1, h⟩ := bind_eq_some_iff.mp h
    obtain ⟨t2, ht2, hT⟩ := sweep_alike hA ht1
    rw [passes, ht2, Option.bind_some, ← hT.needCheck]
    split at h
    · next hneed => rw [if_pos hneed]; exact passes_alike hT h
    · next hneed =>
      rw [if_neg hneed]
      exact ⟨t2, rfl, some.inj h ▸ hT⟩

theorem commit_alike_some (hd : u.dtxn.restart.dreqs = v.dtxn.restart.dreqs)
    (hrows : u.store.rows = v.store.rows) {r : Work × Dict ℕ (Dict ℕ Value)}
    (h : u.commitExecAllRdy site id = some r) :
    ∃ r', v.commitExecAllRdy site id = some r' ∧ r.1.store.rows = r'.1.store.rows := by
  obtain ⟨st, hst, rfl⟩ := map_eq_some_iff.mp h
  rw [recursiveExecuteReadyPieces] at hst
  have hstart : Alike { work := ⟨u.dtxn.restart, u.store⟩ } { work := ⟨v.dtxn.restart, v.store⟩ } :=
    ⟨hd, hrows, rfl, rfl, rfl⟩
  obtain ⟨st', hst', hA⟩ := passes_alike hstart hst
  rw [hd] at hst'
  exact ⟨_, by rw [commitExecAllRdy, recursiveExecuteReadyPieces, hst']; rfl, hA.rows⟩

/-- The tables after a commit execution, if it returns. -/
def Work.committedRows (site : Site) (id : ℕ) (w : Work) : Option (List Row) :=
  (w.commitExecAllRdy site id).map fun r => r.1.store.rows

theorem committedRows_congr (hd : u.dtxn.restart.dreqs = v.dtxn.restart.dreqs)
    (hrows : u.store.rows = v.store.rows) : u.committedRows site id = v.committedRows site id := by
  rw [committedRows, committedRows]
  cases hu : u.commitExecAllRdy site id with
  | some r =>
    obtain ⟨r', hr', heq⟩ := commit_alike_some hd hrows hu
    rw [hr', map_some, map_some, heq]
  | none =>
    cases hv : v.commitExecAllRdy site id with
    | none => rfl
    | some r =>
      obtain ⟨r', hr', -⟩ := commit_alike_some hd.symm hrows.symm hv
      cases hu.symm.trans hr'

theorem offers_unwanted (h : ∀ x v, (x, v) ∈ o → c.input.pieceInputReady = false →
    x ∈ c.input.keys → (c.input.inputVarReady.find x).getD false = true) : c.offers o = c := by
  induction o with
  | nil => rfl
  | cons e o ih =>
    have hone : c.offer e.1 e.2 = c := by
      rw [offer, TxnWorkspace.offer, if_neg]
      rintro ⟨hready, hkey, hmiss⟩
      rw [h e.1 e.2 mem_cons_self hready hkey] at hmiss
      exact Bool.noConfusion hmiss
    rw [offers, foldl_cons, hone]
    exact ih fun x v hx => h x v (mem_cons_of_mem e hx)

theorem getElem_of_clear {l l' : List SimpleCommand}
    (h : l.map clear = l'.map clear) (hc : l'[i]? = some c) :
    ∃ b, l[i]? = some b ∧ b.clear = c.clear := by
  have hi : (l.map clear)[i]? = some c.clear := by
    rw [h, getElem?_map, hc, map_some]
  rw [getElem?_map] at hi
  exact map_eq_some_iff.mp hi

theorem unsupplied_congr {l l' : List SimpleCommand}
    (h : l.map clear = l'.map clear) (hl : Unsupplied site l) : Unsupplied site l' := by
  intro i j ci cj x hij hi hj hready hx hmiss hprod
  obtain ⟨bi, hbi, hci⟩ := getElem_of_clear h hi
  obtain ⟨bj, hbj, hcj⟩ := getElem_of_clear h hj
  have hin : bi.input = ci.input :=
    show bi.clear.input = ci.clear.input from congrArg input hci
  rw [← hin] at hready hx hmiss
  exact hl i j bi bj x hij hbi hbj hready hx hmiss (hprod.congr hcj.symm)

theorem executes_produces (h : Executes site id i st st' c out o new) {x : ℕ} {v : Value}
    (hx : (x, v) ∈ o) : Produces site c x := by
  rcases h.offered with rfl | rfl
  · exact absurd hx not_mem_nil
  · rcases h.handler with ⟨-, rfl, -, -⟩ | ⟨hreal, -, a, ha, -⟩
    · exact absurd hx not_mem_nil
    · exact ⟨hreal, [], _, _, out, a, h.ready, ha, Dict.mem_keys.mp (mem_map_of_mem hx)⟩

theorem executes_unsupplied (hun : Unsupplied site st.work.dtxn.dreqs)
    (h : Executes site id i st st' c out o new) :
    st'.work.dtxn.dreqs.map clear = st.work.dtxn.dreqs.map clear := by
  refine ext_getElem? fun j => ?_
  rw [getElem?_map, getElem?_map, h.dreqs, getElem_filedAt, Option.map_map]
  cases hj : st.work.dtxn.dreqs[j]? with
  | none => rfl
  | some cj =>
    refine congrArg some ?_
    simp only [Function.comp]
    rcases eq_or_ne i j with rfl | hij
    · obtain rfl := some.inj (hj.symm.trans h.piece)
      rw [if_pos rfl, offers_of_ready (show cj.mark.input.pieceInputReady = true from h.ready)]
      rfl
    · rw [if_neg hij, offers_unwanted fun x v hx hready hkey => ?_]
      by_contra hmiss
      exact hun j i cj c x (Ne.symm hij) hj h.piece hready hkey (eq_false_of_ne_true hmiss)
        (executes_produces h hx)

theorem recursive_unsupplied (hun : Unsupplied site w.dtxn.dreqs)
    (h : w.recursiveExecuteReadyPieces site id = some st') :
    st'.work.dtxn.dreqs.map clear = w.dtxn.dreqs.map clear := by
  refine recursive_inv (I := fun w' => w'.dtxn.dreqs.map clear =
    w.dtxn.dreqs.map clear) (fun st i st' hst hp => ?_) rfl h
  rcases piece_executes hp with ⟨rfl, -⟩ | ⟨c, out, o, new, hex⟩
  · exact hst
  · exact (executes_unsupplied (unsupplied_congr hst.symm hun) hex).trans hst

theorem dispatchExec_unsupplied (hseq : site.Sequential inserts)
    (hun : Unsupplied site w.dtxn.dreqs) (h : w.dispatchExec site id = some w') :
    w'.dtxn.restart.dreqs = w.dtxn.restart.dreqs := by
  obtain ⟨st, hst, h⟩ := bind_eq_some_iff.mp h
  obtain ⟨hdreqs, -, -⟩ := checkPieces_rows hseq ((recursive_rework hst).phase.trans rfl) h
  rw [RccDTxn.restart, hdreqs]
  exact recursive_unsupplied (w := ⟨w.dtxn.setPhase .dispatch, w.store⟩) hun hst

/-- A dispatch leaves the tables alone exactly if no piece it executes makes an insertion; and then,
    where the pieces feed no other, a commit execution after it does to the tables what it would
    have done without it. -/
theorem dispatch_rows_iff (hseq : site.Sequential inserts) (h : w.dispatchExec site id = some w') :
    (w'.store.rows = w.store.rows ↔ NoInserts site inserts w.dtxn.dreqs) ∧
    (Unsupplied site w.dtxn.dreqs →
      ((w'.store.rows = w.store.rows ∧ w'.committedRows site id = w.committedRows site id) ↔
        NoInserts site inserts w.dtxn.dreqs)) := by
  obtain ⟨extra, hrows, hlen⟩ := dispatchExec_rows hseq h
  have hsame : w'.store.rows = w.store.rows ↔ NoInserts site inserts w.dtxn.dreqs := by
    rw [← pending_eq_zero, ← hlen, length_eq_zero_iff, hrows]
    exact append_right_eq_self
  refine ⟨hsame, fun hun => ⟨fun hboth => hsame.mp hboth.1, fun hno => ⟨hsame.mpr hno, ?_⟩⟩⟩
  exact committedRows_congr (dispatchExec_unsupplied hseq hun h) (hsame.mpr hno)

/-- Piece type 1 reads a cell and overwrites it, deferred; type 2 adds a row. -/
def tableSite : Site :=
  { parId := 0
    handler := fun _ type _ =>
      if type = 1 then .read 0 0 .instant fun _ => .write 0 0 (.i32 9) .deferred (.done {})
      else .insert 1 [.i32 4] (.done {}) }

def tableInserts (_ type : ℕ) : ℕ := if type = 1 then 0 else 1

theorem table_sequential : tableSite.Sequential tableInserts := by
  intro rootType type input
  simp only [tableSite, tableInserts]
  split
  · exact .read 0 0 _ fun v => .write 0 0 _ (.done {})
  · exact .insert 1 _ (.done {})

/-- A transaction of one piece. -/
def oneTxn (type : ℕ) : RccDTxn := { dreqs := [{ innId := 0, type := type }] }

theorem dispatch_rows_iff_one : ∃ w', dispatchExec tableSite 5 ⟨oneTxn 1, cellStore 2⟩ = some w' ∧
    w'.store.rows = (cellStore 2).rows ∧
    w'.committedRows tableSite 5 = committedRows tableSite 5 ⟨oneTxn 1, cellStore 2⟩ := by
  have hsome : (dispatchExec tableSite 5 ⟨oneTxn 1, cellStore 2⟩).isSome = true := by decide
  obtain ⟨w', h⟩ := Option.isSome_iff_exists.mp hsome
  have hun : Unsupplied tableSite (oneTxn 1).dreqs := by
    rintro (_ | i) j ci cj x hij hi hj hready
    · obtain rfl := some.inj hi
      cases hready
    · cases hi
  have hno : NoInserts tableSite tableInserts (oneTxn 1).dreqs := by
    intro c hc _ _
    rw [mem_singleton.mp hc]
    rfl
  exact ⟨w', h, ((dispatch_rows_iff table_sequential h).2 hun).mpr hno⟩

/-- The row of an insertion is there after the dispatch, and twice after the commit. -/
theorem dispatch_inserts_row : (dispatchExec tableSite 5 ⟨oneTxn 2, cellStore 2⟩).map (fun w =>
        (w.store.rows, w.committedRows tableSite 5)) = some ([⟨0, [.i32 2]⟩, ⟨1, [.i32 4]⟩],
        some [⟨0, [.i32 2]⟩, ⟨1, [.i32 4]⟩, ⟨1, [.i32 4]⟩]) ∧
    committedRows tableSite 5 ⟨oneTxn 2, cellStore 2⟩ = some [⟨0, [.i32 2]⟩, ⟨1, [.i32 4]⟩] := by
  decide

end

end Fiss.Rcc
