import Fiss.Schemes.Dict
import Fiss.Schemes.OrdSet
import Fiss.Schemes.Runs

/-! The inputs of a transaction's pieces, over its attempts. A workspace is a set of variables and a
    map of values; copying or assigning one copies the set and shares the map, so the workspace of
    the request, the one outputs are merged into and those of the pieces are views of one map. `Reset`
    takes the variables back to those of the request and leaves the map as it is.

    The transaction types differ in which pieces there are and what they read (`Logic`). The counters
    of pieces are left out. `merged` and `sent` record what was merged and what pieces were given in the
    current attempt; the code has no such lists. -/

namespace Fiss.Classic
open List Function
open Option (some.inj)

/-- The variables, and the address of the map with their values. -/
structure TxnWorkspace where
  keys : OrdSet ℕ := ∅
  values : ℕ

inductive CommandStatus where
  | waiting
  | dispatchable
  | dispatched
  | outputReady
  deriving DecidableEq

/-- How an attempt finds a piece: waiting for its inputs, ready with these, or not needed. -/
inductive Start where
  | waiting
  | ready (keys : OrdSet ℕ)
  | done

/-- A type of transaction, in terms of the variables of its workspace. -/
structure Logic (V : Type) where
  /-- `input_vars_` -/
  inputVars : ℕ → OrdSet ℕ
  /-- the pieces an attempt begins with -/
  retry : OrdSet ℕ → Dict ℕ V → List (ℕ × Start)
  /-- whether `CheckReady` is called at the beginning -/
  checks : Bool
  /-- the pieces that a registered callback makes ready when this piece has its outputs -/
  callback : ℕ → Option (OrdSet ℕ → Dict ℕ V → List (ℕ × OrdSet ℕ))
  retry_keys : ∀ keys values pi ks, (pi, .ready ks) ∈ retry keys values → ∀ k ∈ ks, k ∈ keys
  callback_keys : ∀ pi f keys out q ks, callback pi = some f → (q, ks) ∈ f keys out →
    ∀ k ∈ ks, k ∈ keys

structure TxnCommand (V : Type) where
  /-- the maps of values -/
  heap : ℕ → Dict ℕ V
  /-- the first address that is free -/
  next : ℕ
  ws : TxnWorkspace
  wsInit : TxnWorkspace
  inputs : Dict ℕ TxnWorkspace := {}
  status : Dict ℕ CommandStatus := {}
  outputs : Dict ℕ (Dict ℕ V) := {}
  request : Dict ℕ V
  merged : List (ℕ × V) := []
  sent : List (ℕ × ℕ × V) := []

namespace TxnCommand

variable {V : Type} {L : Logic V} {c : TxnCommand V} {k pi q : ℕ} {v : V} {ks : OrdSet ℕ}
  {stale : List ℕ}

variable (L c)

/-- The map of the working workspace. -/
def values : Dict ℕ V := c.heap c.ws.values

/-! ### The workspaces -/

/-- `inputs_[pi]`, with a map of its own where there was none. -/
def input (pi : ℕ) : TxnCommand V :=
  if (c.inputs.find pi).isSome then c
  else { c with
    heap := update c.heap c.next {}
    next := c.next + 1
    inputs := c.inputs.insert pi ⟨∅, c.next⟩ }

/-- `GetWorkspace(pi)`: a map that is empty is given up for the one of the transaction. -/
def getWorkspace (pi : ℕ) : TxnCommand V :=
  { c.input pi with
    inputs := (c.input pi).inputs.modify pi fun ws =>
      if ((c.input pi).heap ws.values).isEmpty then { ws with values := c.ws.values } else ws }

/-- The piece becomes dispatchable, with the variables `keys`. -/
def makeReady (pi : ℕ) (keys : OrdSet ℕ) : TxnCommand V :=
  { c.getWorkspace pi with
    inputs := (c.getWorkspace pi).inputs.modify pi fun ws => { ws with keys := keys }
    status := c.status.set pi .dispatchable }

/-- The body of the loop of `CheckReady`. -/
def checkPiece (pi : ℕ) : TxnCommand V :=
  if c.status.find pi = some .waiting ∧ ∀ var ∈ (L.inputVars pi).elems, var ∈ c.ws.keys then
    c.makeReady pi (L.inputVars pi)
  else c

def checkReady : TxnCommand V := c.status.keys.foldl (checkPiece L) c

/-- `ws_.insert(output_map)`: a variable that has a value keeps it. -/
def insert (out : Dict ℕ V) : TxnCommand V :=
  { c with
    ws := { c.ws with keys := out.keys.foldl OrdSet.insert c.ws.keys }
    heap := update c.heap c.ws.values
      (out.entries.foldl (fun d e => d.insert e.1 e.2) c.values)
    merged := c.merged ++ out.entries }

/-! ### What happens to a transaction -/

def setStatus (pi : ℕ) (st : CommandStatus) : TxnCommand V :=
  { c with status := c.status.set pi st }

def beginPiece : ℕ × Start → TxnCommand V
  | (pi, .waiting) => c.setStatus pi .waiting
  | (pi, .ready keys) => c.makeReady pi keys
  | (pi, .done) => c.setStatus pi .outputReady

/-- The pieces at the beginning of an attempt. -/
def begin : TxnCommand V :=
  if L.checks then ((L.retry c.ws.keys c.values).foldl beginPiece c).checkReady L
  else (L.retry c.ws.keys c.values).foldl beginPiece c

/-- `Init`: both workspaces share the map of the request. -/
def init (request : Dict ℕ V) : TxnCommand V :=
  begin L
    { heap := update (fun _ => {}) 0 request
      next := 1
      ws := ⟨request.keys.foldl OrdSet.insert ∅, 0⟩
      wsInit := ⟨request.keys.foldl OrdSet.insert ∅, 0⟩
      request := request }

/-- The values a piece with this workspace is given. -/
def seen (ws : TxnWorkspace) : List (ℕ × V) :=
  ws.keys.elems.filterMap fun k => ((c.heap ws.values).find k).map fun v => (k, v)

/-- A dispatchable piece is sent; all its variables need to have values. -/
def sendPiece (pi : ℕ) : Option (TxnCommand V) :=
  match c.inputs.find pi with
  | none => some (c.setStatus pi .dispatched)
  | some ws =>
    if ∀ k ∈ ws.keys.elems, ((c.heap ws.values).find k).isSome then
      some { c.setStatus pi .dispatched with
        sent := c.sent ++ (c.seen ws).map fun e => (pi, e.1, e.2) }
    else none

/-- The loop of `GetReadyCmds`. -/
def getReady : List ℕ → TxnCommand V → Option (TxnCommand V)
  | [], c => some c
  | pi :: pis, c =>
    if c.status.find pi = some .dispatchable then (c.sendPiece pi).bind (getReady pis)
    else getReady pis c

/-- `start_callback`, for a piece with its outputs. -/
def startCallback (pi : ℕ) (out : Dict ℕ V) : TxnCommand V :=
  match L.callback pi with
  | some handler => (handler (c.insert out).ws.keys out).foldl (fun c e => c.makeReady e.1 e.2)
      (c.insert out)
  | none => (c.insert out).checkReady L

def merge (pi : ℕ) (out : Dict ℕ V) : Option (TxnCommand V) :=
  if (c.outputs.find pi).isSome then none
  else some ({ c with outputs := c.outputs.insert pi out }.startCallback L pi out)

/-- The workspace of an attempt that is to begin: `ws_ = ws_init_`. -/
def rewind : TxnCommand V :=
  { c with ws := c.wsInit, outputs := {}, merged := [], sent := [] }

def reset : TxnCommand V := c.rewind.begin L

/-- What happens to a transaction: its ready pieces are dispatched, the outputs of a piece are merged,
    or the attempt is aborted and the next one begins. -/
inductive Event (V : Type) where
  | dispatch
  | merge (pi : ℕ) (out : Dict ℕ V)
  | restart

def step : Event V → Option (TxnCommand V)
  | .dispatch => getReady c.status.keys c
  | .merge pi out => c.merge L pi out
  | .restart => some (c.reset L)

/-! ### Isolation -/

/-- The request's own inputs, then the outputs merged in this attempt. -/
def own : List (ℕ × V) := c.request.entries ++ c.merged

/-- Each value a piece of this attempt was given is the request's, or else the first of the attempt. -/
def Isolated : Prop := ∀ pi k v, (pi, k, v) ∈ c.sent → c.own.lookup k = some v

/-- Some piece reads the variable. -/
def Reads (k : ℕ) : Prop :=
  (∃ pi, k ∈ L.inputVars pi) ∨
    (∃ keys values pi ks, (pi, .ready ks) ∈ L.retry keys values ∧ k ∈ ks) ∨
    ∃ pi f keys out q ks, L.callback pi = some f ∧ (q, ks) ∈ f keys out ∧ k ∈ ks

/-- An output that is new in this attempt and that a piece reads has no other value left in the map;
    and a new attempt begins with no piece left over that is dispatchable. -/
def Undisturbed : Event V → Prop
  | .dispatch => True
  | .merge _ out => ∀ e ∈ out.entries, e.1 ∉ c.ws.keys → Reads L e.1 →
      ∀ v, c.values.find e.1 = some v → v = e.2
  | .restart => ∀ pi, c.status.find pi = some .dispatchable →
      pi ∈ (L.retry c.wsInit.keys (c.heap c.wsInit.values)).map Prod.fst

variable {L c}

/-- The workspaces share one map, which has the request's values and, for the variables of this
    attempt that are read, the attempt's own. -/
structure Base (L : Logic V) (c : TxnCommand V) : Prop where
  shared : c.wsInit.values = c.ws.values
  alloc : c.ws.values < c.next
  initKeys : ∀ k, k ∈ c.wsInit.keys ↔ (c.request.find k).isSome
  kept : ∀ k v, c.request.find k = some v → c.values.find k = some v
  keys : ∀ k, k ∈ c.ws.keys ↔ (c.own.lookup k).isSome
  read : ∀ k ∈ c.ws.keys, Reads L k → c.values.find k = c.own.lookup k
  sent : Isolated c

/-- A piece that is dispatchable has variables of this attempt, unless it is `stale`. -/
structure Inv (L : Logic V) (stale : List ℕ) (c : TxnCommand V) : Prop extends Base L c where
  views : ∀ pi ws, c.inputs.find pi = some ws → ws.values = c.ws.values
  pieces : ∀ pi, pi ∉ stale → c.status.find pi = some .dispatchable →
    ∃ ws, c.inputs.find pi = some ws ∧ ∀ k ∈ ws.keys, k ∈ c.ws.keys ∧ Reads L k

/-- The workspace of the transaction and what it holds are the same. -/
structure Same (c c' : TxnCommand V) : Prop where
  ws : c'.ws = c.ws
  wsInit : c'.wsInit = c.wsInit
  request : c'.request = c.request
  merged : c'.merged = c.merged
  sent : c'.sent = c.sent
  values : c'.values = c.values
  next : c.next ≤ c'.next

theorem Base.same {c' : TxnCommand V} (h : Base L c) (hs : Same c c') : Base L c' := by
  have hown : c'.own = c.own := by rw [own, own, hs.request, hs.merged]
  refine ⟨?_, ?_, ?_, ?_, ?_, ?_, ?_⟩
  · rw [hs.wsInit, hs.ws]
    exact h.shared
  · rw [hs.ws]
    exact h.alloc.trans_le hs.next
  · rw [hs.wsInit, hs.request]
    exact h.initKeys
  · rw [hs.request, hs.values]
    exact h.kept
  · rw [hs.ws, hown]
    exact h.keys
  · rw [hs.ws, hs.values, hown]
    exact h.read
  · rw [Isolated, hs.sent, hown]
    exact h.sent

/-! ### Making pieces ready -/

theorem input_same (h : Base L c) (pi : ℕ) : Same c (c.input pi) := by
  rw [input]
  split
  · exact ⟨rfl, rfl, rfl, rfl, rfl, rfl, le_rfl⟩
  · refine ⟨rfl, rfl, rfl, rfl, rfl, ?_, Nat.le_succ _⟩
    exact update_of_ne h.alloc.ne _ _

theorem makeReady_same (h : Base L c) (pi : ℕ) (ks : OrdSet ℕ) : Same c (c.makeReady pi ks) := by
  have hsame := input_same h pi
  exact ⟨hsame.ws, hsame.wsInit, hsame.request, hsame.merged, hsame.sent, hsame.values, hsame.next⟩

theorem find_inputs_makeReady (h : Inv L stale c) (pi : ℕ) (ks : OrdSet ℕ) (q : ℕ) :
    (c.makeReady pi ks).inputs.find q =
      if q = pi then some ⟨ks, c.ws.values⟩ else c.inputs.find q := by
  simp only [makeReady, getWorkspace, Dict.find_modify]
  rcases eq_or_ne q pi with rfl | hne
  · simp only [if_true]
    rw [input]
    cases hfind : c.inputs.find q with
    | some ws =>
      simp only [hfind, Option.isSome_some, if_true, Option.map_some, Option.some.injEq]
      split
      · rfl
      · rw [h.views q ws hfind]
    | none => simp [hfind, Dict.find_insert, Dict.isEmpty]
  · simp only [if_neg hne]
    rw [input]
    split
    · rfl
    · rw [Dict.find_insert, if_neg hne]

theorem find_status_makeReady (pi : ℕ) (ks : OrdSet ℕ) (c : TxnCommand V) (q : ℕ) :
    (c.makeReady pi ks).status.find q = if q = pi then some .dispatchable else c.status.find q :=
  Dict.find_set c.status pi q .dispatchable

theorem Inv.weaken (h : Inv L stale c) {stale' : List ℕ} (hsub : ∀ q ∈ stale, q ∈ stale') :
    Inv L stale' c :=
  { h with pieces := fun pi hpi => h.pieces pi fun hin => hpi (hsub pi hin) }

theorem Inv.makeReady (h : Inv L (pi :: stale) c) (hks : ∀ k ∈ ks, k ∈ c.ws.keys ∧ Reads L k) :
    Inv L stale (c.makeReady pi ks) := by
  have hsame := makeReady_same h.toBase pi ks
  refine ⟨h.toBase.same hsame, fun q ws hq => ?_, fun q hq hst => ?_⟩
  · rw [find_inputs_makeReady h] at hq
    rw [hsame.ws]
    split at hq
    · rw [← some.inj hq]
    · exact h.views q ws hq
  · rw [find_inputs_makeReady h, hsame.ws]
    rw [find_status_makeReady] at hst
    split
    · exact ⟨_, rfl, hks⟩
    · next hne =>
      rw [if_neg hne] at hst
      exact h.pieces q (by simp [hne, hq]) hst

theorem Inv.setStatus (h : Inv L (pi :: stale) c) {st : CommandStatus} (hst : st ≠ .dispatchable) :
    Inv L stale (c.setStatus pi st) := by
  refine { h with pieces := fun q hq hready => ?_ }
  replace hready : (c.status.set pi st).find q = some .dispatchable := hready
  rw [Dict.find_set] at hready
  split at hready
  · exact absurd (some.inj hready) hst
  · next hne => exact h.pieces q (by simp [hne, hq]) hready

theorem Inv.checkReady (h : Inv L stale c) : Inv L stale (c.checkReady L) := by
  have hpieces : ∀ (pis : List ℕ) (c : TxnCommand V), Inv L stale c →
      Inv L stale (pis.foldl (checkPiece L) c) := by
    intro pis
    induction pis with
    | nil => exact fun c h => h
    | cons pi pis ih =>
      intro c h
      refine ih _ ?_
      rw [checkPiece]
      split
      · next hready =>
        have hweak := h.weaken fun q hq => mem_cons_of_mem pi hq
        exact hweak.makeReady fun k hk => ⟨hready.2 k hk, .inl ⟨pi, hk⟩⟩
      · exact h
  exact hpieces _ c h

theorem Inv.begin (h : Inv L ((L.retry c.ws.keys c.values).map Prod.fst) c) :
    Inv L [] (c.begin L) := by
  have hpieces : ∀ (pieces : List (ℕ × Start)) (c : TxnCommand V),
      (∀ pi ks, (pi, .ready ks) ∈ pieces → ∀ k ∈ ks, k ∈ c.ws.keys ∧ Reads L k) →
      Inv L (pieces.map Prod.fst) c → Inv L [] (pieces.foldl beginPiece c) := by
    intro pieces
    induction pieces with
    | nil => exact fun c _ h => h
    | cons e pieces ih =>
      intro c hready h
      obtain ⟨pi, start⟩ := e
      have hrest : ∀ q ks, (q, .ready ks) ∈ pieces → ∀ k ∈ ks, k ∈ c.ws.keys ∧ Reads L k :=
        fun q ks hq => hready q ks (mem_cons_of_mem _ hq)
      cases start with
      | waiting | done => exact ih _ hrest (h.setStatus (by decide))
      | ready ks =>
        refine ih _ ?_ (h.makeReady (hready pi ks mem_cons_self))
        rw [beginPiece, (makeReady_same h.toBase pi ks).ws]
        exact hrest
  have hbegun := hpieces _ c (fun pi ks hks k hk => ⟨L.retry_keys _ _ pi ks hks k hk,
    .inr (.inl ⟨_, _, pi, ks, hks, hk⟩)⟩) h
  rw [TxnCommand.begin]
  split
  · exact hbegun.checkReady
  · exact hbegun

/-! ### Merging outputs -/

theorem find_foldl_insert (entries : List (ℕ × V)) (d : Dict ℕ V) (k : ℕ) :
    (entries.foldl (fun d e => d.insert e.1 e.2) d).find k = (d.find k).or (entries.lookup k) := by
  induction entries generalizing d with
  | nil => simp
  | cons e entries ih =>
    rw [foldl_cons, ih, Dict.find_insert]
    obtain ⟨k', v⟩ := e
    rcases eq_or_ne k k' with rfl | hne
    · cases d.find k <;> simp
    · have hbeq : (k == k') = false := beq_false_of_ne hne
      simp [hne, lookup_cons, hbeq]

theorem own_insert (out : Dict ℕ V) (c : TxnCommand V) (k : ℕ) :
    (c.insert out).own.lookup k = (c.own.lookup k).or (out.find k) := by
  rw [own, insert, ← append_assoc, lookup_append]
  rfl

theorem values_insert (out : Dict ℕ V) (c : TxnCommand V) (k : ℕ) :
    (c.insert out).values.find k = (c.values.find k).or (out.find k) := by
  show (update c.heap c.ws.values _ c.ws.values).find k = _
  rw [update_self, find_foldl_insert]
  rfl

theorem mem_keys_insert (out : Dict ℕ V) (c : TxnCommand V) (k : ℕ) :
    k ∈ (c.insert out).ws.keys ↔ k ∈ c.ws.keys ∨ (out.find k).isSome := by
  rw [insert, ← Dict.mem_keys]
  exact OrdSet.mem_foldl_insert

theorem Inv.insert (h : Inv L [] c) {out : Dict ℕ V}
    (hout : ∀ e ∈ out.entries, e.1 ∉ c.ws.keys → Reads L e.1 →
      ∀ v, c.values.find e.1 = some v → v = e.2) : Inv L [] (c.insert out) := by
  refine ⟨⟨h.shared, h.alloc, h.initKeys, fun k v hk => ?_, fun k => ?_, fun k hk hread => ?_,
    fun pi k v hsent => ?_⟩, h.views, fun pi hpi hready => ?_⟩
  · rw [values_insert, h.kept k v hk]
    rfl
  · rw [mem_keys_insert, own_insert, Option.isSome_or, Bool.or_eq_true, h.keys]
  · rw [values_insert, own_insert]
    by_cases hin : k ∈ c.ws.keys
    · rw [h.read k hin hread]
    · have hnone : c.own.lookup k = none := by
        rw [h.keys] at hin
        exact Option.not_isSome_iff_eq_none.mp hin
      obtain ⟨v, hv⟩ :=
        Option.isSome_iff_exists.mp (((mem_keys_insert out c k).mp hk).resolve_left hin)
      rw [hnone, hv]
      cases hold : c.values.find k with
      | none => rfl
      | some w => rw [hout (k, v) (Dict.mem_entries_of_find hv) hin hread w hold]; rfl
  · rw [own_insert, h.sent pi k v hsent]
    rfl
  · obtain ⟨ws, hws, hkeys⟩ := h.pieces pi hpi hready
    exact ⟨ws, hws, fun k hk =>
      ⟨(mem_keys_insert out c k).mpr (.inl (hkeys k hk).1), (hkeys k hk).2⟩⟩

theorem Inv.startCallback (h : Inv L [] c) (pi : ℕ) {out : Dict ℕ V}
    (hout : ∀ e ∈ out.entries, e.1 ∉ c.ws.keys → Reads L e.1 →
      ∀ v, c.values.find e.1 = some v → v = e.2) : Inv L [] (c.startCallback L pi out) := by
  have hins := h.insert hout
  rw [TxnCommand.startCallback]
  split
  · next handler hhandler =>
    have hpieces : ∀ (pieces : List (ℕ × OrdSet ℕ)) (c : TxnCommand V),
        (∀ q ks, (q, ks) ∈ pieces → ∀ k ∈ ks, k ∈ c.ws.keys ∧ Reads L k) → Inv L [] c →
        Inv L [] (pieces.foldl (fun c e => c.makeReady e.1 e.2) c) := by
      intro pieces
      induction pieces with
      | nil => exact fun c _ h => h
      | cons e pieces ih =>
        intro c hks h
        have hweak := h.weaken (forall_mem_nil fun q => q ∈ [e.1])
        refine ih _ ?_ (hweak.makeReady (hks e.1 e.2 mem_cons_self))
        rw [(makeReady_same h.toBase e.1 e.2).ws]
        exact fun q ks hq => hks q ks (mem_cons_of_mem _ hq)
    refine hpieces _ _ (fun q ks hq k hk => ⟨?_, ?_⟩) hins
    · exact L.callback_keys pi handler _ out q ks hhandler hq k hk
    · exact .inr (.inr ⟨pi, handler, _, out, q, ks, hhandler, hq, hk⟩)
  · exact hins.checkReady

/-! ### Sending pieces -/

theorem Inv.sendPiece (h : Inv L [] c) (hready : c.status.find pi = some .dispatchable)
    {c' : TxnCommand V} (hc : c.sendPiece pi = some c') : Inv L [] c' := by
  obtain ⟨ws, hws, hkeys⟩ := h.pieces pi not_mem_nil hready
  have hset : Inv L [] (c.setStatus pi .dispatched) :=
    (h.weaken (forall_mem_nil fun q => q ∈ [pi])).setStatus (by decide)
  rw [TxnCommand.sendPiece, hws] at hc
  simp only [Option.ite_none_right_eq_some, Option.some.injEq] at hc
  obtain ⟨-, rfl⟩ := hc
  refine { hset with sent := fun q k v hsent => ?_ }
  rcases mem_append.mp hsent with hsent | hsent
  · exact h.sent q k v hsent
  · -- the piece was given a value of the shared map, for a variable of this attempt
    simp only [seen, mem_map, mem_filterMap, Option.map_eq_some_iff] at hsent
    obtain ⟨⟨k', v'⟩, ⟨j, hj, w, hw, hjw⟩, heq⟩ := hsent
    simp only [Prod.mk.injEq] at hjw heq
    obtain ⟨rfl, rfl⟩ := hjw
    obtain ⟨rfl, rfl, rfl⟩ := heq
    rw [h.views _ ws hws] at hw
    have hread := h.read j (hkeys j hj).1 (hkeys j hj).2
    exact hread.symm.trans hw

theorem Inv.getReady : ∀ (pis : List ℕ) {c c' : TxnCommand V}, Inv L [] c →
    getReady pis c = some c' → Inv L [] c'
  | [], _, _, h, hc => some.inj hc ▸ h
  | pi :: pis, c, c', h, hc => by
    rw [TxnCommand.getReady] at hc
    split at hc
    · next hready =>
      obtain ⟨c1, hsend, hrest⟩ := Option.bind_eq_some_iff.mp hc
      exact Inv.getReady pis (h.sendPiece hready hsend) hrest
    · exact Inv.getReady pis h hc

/-! ### Attempts -/

theorem Base.rewind (h : Base L c) : Base L c.rewind := by
  have hvalues : c.rewind.values = c.values := congrArg c.heap h.shared
  have hown : ∀ k, c.rewind.own.lookup k = c.request.find k := fun k => by
    rw [own, TxnCommand.rewind, append_nil]
    rfl
  refine ⟨rfl, ?_, h.initKeys, fun k v hk => ?_, fun k => ?_, fun k hk _ => ?_, fun pi k v hsent => ?_⟩
  · exact h.shared.trans_lt h.alloc
  · rw [hvalues]
    exact h.kept k v hk
  · rw [hown]
    exact h.initKeys k
  · obtain ⟨v, hv⟩ := Option.isSome_iff_exists.mp ((h.initKeys k).mp hk)
    rw [hvalues, hown, hv, h.kept k v hv]
  · exact absurd hsent not_mem_nil

theorem step_inv {e : Event V} {c' : TxnCommand V} (h : Inv L [] c) (hcond : Undisturbed L c e)
    (hc : step L c e = some c') : Inv L [] c' := by
  cases e with
  | dispatch => exact Inv.getReady _ h hc
  | merge pi out =>
    rw [step, merge] at hc
    split at hc
    · cases hc
    · rw [← some.inj hc]
      have h' : Inv L [] { c with outputs := c.outputs.insert pi out } := { h with }
      exact h'.startCallback pi hcond
  | restart =>
    rw [← some.inj hc]
    refine Inv.begin ⟨h.toBase.rewind, ?_, fun pi hpi hready => ?_⟩
    · exact fun pi ws hws => (h.views pi ws hws).trans h.shared.symm
    · exact absurd (hcond pi hready) hpi

theorem init_inv (L : Logic V) (request : Dict ℕ V) : Inv L [] (init L request) := by
  have hkeys : ∀ k, k ∈ request.keys.foldl OrdSet.insert ∅ ↔ (request.find k).isSome := fun k => by
    rw [OrdSet.mem_foldl_insert, Dict.mem_keys]
    simp
  have hown : ∀ k, (request.entries ++ []).lookup k = request.find k := fun k => by
    rw [append_nil]
    rfl
  refine Inv.begin ⟨⟨rfl, Nat.one_pos, hkeys, fun k v hk => hk, fun k => ?_, fun k _ _ => ?_, ?_⟩,
    ?_, ?_⟩
  · exact (hkeys k).trans (by rw [own, hown])
  · exact (hown k).symm
  · exact fun pi k v hsent => absurd hsent not_mem_nil
  · exact fun pi ws hws => by cases hws
  · exact fun pi _ hready => by cases hready

/-- Over all attempts of a transaction, the pieces of an attempt are given the request's inputs and
    the attempt's own outputs, as long as no output meets another value an earlier attempt has left. -/
theorem retries_isolated (L : Logic V) (request : Dict ℕ V) (es : List (Event V))
    (h : Along (step L) (Undisturbed L) (init L request) es) :
    Throughout (step L) Isolated (init L request) es :=
  throughout_mono (fun _ hinv => hinv.sent)
    (throughout_of_inv (fun _ _ _ => step_inv) (init_inv L request) h)

/-- A piece that reads variable 0 and one that reads variable 1, which the first one puts out. -/
def chain : Logic ℕ where
  inputVars pi := if pi = 1 then OrdSet.insert ∅ 0 else OrdSet.insert ∅ 1
  retry _ _ := [(1, .waiting), (2, .waiting)]
  checks := true
  callback _ := none
  retry_keys _ _ pi ks h := by simp at h
  callback_keys _ _ _ _ _ _ h := by cases h

/-- An attempt that is aborted and tried again, with `o` for variable 1 in the second. -/
def retried (o : ℕ) : List (Event ℕ) :=
  [.dispatch, .merge 1 ⟨[(1, 100)]⟩, .restart, .dispatch, .merge 1 ⟨[(1, o)]⟩, .dispatch]

/-- Where the second attempt puts out the same value, its second piece is given that. -/
theorem retries_isolated_same :
    Along (step chain) (Undisturbed chain) (init chain ⟨[(0, 7)]⟩) (retried 100) ∧
      Throughout (step chain) Isolated (init chain ⟨[(0, 7)]⟩) (retried 100) := by
  have h : Along (step chain) (Undisturbed chain) (init chain ⟨[(0, 7)]⟩) (retried 100) := by
    refine fun c hc => ⟨trivial, ?_⟩
    obtain rfl := some.inj hc
    refine fun c hc => ⟨fun e he _ _ v hv => ?_, ?_⟩
    · obtain rfl := mem_singleton.mp he
      cases hv
    obtain rfl := some.inj hc
    refine fun c hc => ⟨fun pi hpi => ?_, ?_⟩
    · have hmem := mem_map_of_mem (f := Prod.fst) (Dict.mem_entries_of_find hpi)
      exact hmem
    obtain rfl := some.inj hc
    refine fun c hc => ⟨trivial, ?_⟩
    obtain rfl := some.inj hc
    refine fun c hc => ⟨fun e he _ _ v hv => ?_, ?_⟩
    · obtain rfl := mem_singleton.mp he
      exact (some.inj hv).symm
    obtain rfl := some.inj hc
    exact fun c hc => ⟨trivial, trivial⟩
  exact ⟨h, retries_isolated chain ⟨[(0, 7)]⟩ (retried 100) h⟩

/-- Where it puts out another one, the piece is given the value of the aborted attempt. -/
theorem aborted_output_shadows :
    ∃ c, run (step chain) (init chain ⟨[(0, 7)]⟩) (retried 101) = some c ∧ (2, 1, 100) ∈ c.sent ∧
      c.own.lookup 1 = some 101 ∧ ¬ Isolated c := by
  refine ⟨_, rfl, by decide, by decide, fun h => ?_⟩
  exact absurd (h 2 1 100 (by decide)) (by decide)

end TxnCommand

end Fiss.Classic
