import Fiss.Rcc.Graph

/-! The dependency report of a server on a transaction (`MinItfrGraph`): a graph with the
    transaction's vertex and, found by a recursion over parents, the ancestors that have not been
    reported to all their shards yet.

    The loop over the parents is left, not continued, at a parent that is missing, that is in the
    graph already, or that was reported; so only the first parent is sure to be reported. -/

namespace Fiss.Rcc
open Relation Option List OrdSet Dict RccDTxn

/-- `AddParentEdge` on a vertex of the report. -/
def Vertex.addParentEdge (v : Vertex) (p : ℕ) : Vertex := { v with parents := v.parents.insert p }

/-- All shards of the transaction have their bit set. -/
def RccDTxn.piggybacked (d : RccDTxn) : Bool := d.partition.elems.all fun s => s ∈ d.piggybackedShard

/-- The bits of all shards of the transaction get set. -/
def RccDTxn.piggyback (d : RccDTxn) : RccDTxn :=
  { d with piggybackedShard := d.piggybackedShard.union d.partition }

/-- The server's records, whose bits change, and the report. -/
structure Report where
  dtxns : Dtxns
  graph : Graph
  deriving DecidableEq

/-- The report with the parent `p`, whose record is `d`, copied and made a parent of `v`. -/
def copyParent (graph : Graph) (v p : ℕ) (d : RccDTxn) : Graph :=
  (graph.insert p { partition := d.partition }).modify v fun w => w.addParentEdge p

/-- The loop of `AddParentsToMap` over the parents of `v`, `descend` being the call on a parent. -/
def parentLoop (descend : ℕ → Report → Option Report) (v : ℕ) : List ℕ → Report → Option Report
  | [], r => some r
  | p :: ps, r =>
    match r.dtxns.find p with
    | none => some r
    | some d =>
      if (r.graph.find p).isSome then some r
      -- `verify(parent_v->partition_.size() > 0)`
      else if d.partition.elems = [] then none
      else if d.piggybacked then some { r with graph := copyParent r.graph v p d }
      else (descend p ⟨r.dtxns.modify p RccDTxn.piggyback, copyParent r.graph v p d⟩).bind
        (parentLoop descend v ps)

/-- `AddParentsToMap`, `n` calls deep at most. -/
def addParentsToMap : ℕ → ℕ → Report → Option Report
  | 0, _, _ => none
  | n + 1, v, r => (r.dtxns.find v).bind fun d =>
      parentLoop (addParentsToMap n) v d.parents.elems r

/-- The vertex of the transaction itself in its report. -/
def RccDTxn.reportV (d : RccDTxn) : Vertex where
  status := if txnDcd ≤ d.status then txnCmt else d.status
  partition := d.partition

/-- `MinItfrGraph` on an empty graph. -/
def minItfrGraph (dtxns : Dtxns) (t : ℕ) (quick : Bool) : Option Report :=
  (dtxns.find t).bind fun d =>
    if d.parents.elems = [] ∧ quick then some ⟨dtxns, {}⟩
    else addParentsToMap (dtxns.keys.dedup.length + 1) t ⟨dtxns, ⟨[(t, d.reportV)]⟩⟩

/-- The record with other bits. -/
def RccDTxn.setBits (d : RccDTxn) (bits : OrdSet ℕ) : RccDTxn := { d with piggybackedShard := bits }

section Loop

variable {descend : ℕ → Report → Option Report} {v p : ℕ} {ps : List ℕ} {r : Report}

theorem parentLoop_absent (hp : r.dtxns.find p = none) :
    parentLoop descend v (p :: ps) r = some r := by
  rw [parentLoop, hp]

theorem parentLoop_cons {d : RccDTxn} (hp : r.dtxns.find p = some d) :
    parentLoop descend v (p :: ps) r = if (r.graph.find p).isSome then some r
      else if d.partition.elems = [] then none
      else if d.piggybacked then some { r with graph := copyParent r.graph v p d }
      else (descend p ⟨r.dtxns.modify p RccDTxn.piggyback, copyParent r.graph v p d⟩).bind
        (parentLoop descend v ps) := by
  rw [parentLoop, hp]

end Loop

/-- Reporting on a transaction changes bits of the records, nothing else. -/
def OnlyBits (dtxns dtxns' : Dtxns) : Prop :=
  Dict.Rel (fun _ d d' => ∃ bits, d' = d.setBits bits) dtxns dtxns'

theorem OnlyBits.refl (dtxns : Dtxns) : OnlyBits dtxns dtxns :=
  rel_refl (fun _ d => ⟨d.piggybackedShard, rfl⟩) dtxns

theorem OnlyBits.trans {g g' g'' : Dtxns} (h : OnlyBits g g') (h' : OnlyBits g' g'') :
    OnlyBits g g'' :=
  Dict.Rel.trans h h' fun _ _ _ _ hab hbc => by
    obtain ⟨bits, rfl⟩ := hab
    obtain ⟨bits', rfl⟩ := hbc
    exact ⟨bits', rfl⟩

theorem onlyBits_piggyback (dtxns : Dtxns) (p : ℕ) :
    OnlyBits dtxns (dtxns.modify p piggyback) := fun x => by
  rw [find_modify]
  rcases eq_or_ne x p with rfl | hx
  · rw [if_pos rfl]
    cases dtxns.find x with
    | none => exact .none
    | some d => exact .some ⟨_, rfl⟩
  · rw [if_neg hx]
    exact OnlyBits.refl dtxns x

theorem parentLoop_bits {descend : ℕ → Report → Option Report}
    (hdesc : ∀ p r r', descend p r = some r' → OnlyBits r.dtxns r'.dtxns) (v : ℕ) :
    ∀ ps r r', parentLoop descend v ps r = some r' → OnlyBits r.dtxns r'.dtxns
  | [], r, r', h => some.inj h ▸ .refl r.dtxns
  | p :: ps, r, r', h => by
    cases hd : r.dtxns.find p with
    | none => exact some.inj ((parentLoop_absent hd).symm.trans h) ▸ .refl r.dtxns
    | some d =>
      rw [parentLoop_cons hd] at h
      split at h
      · exact some.inj h ▸ .refl r.dtxns
      · split at h
        · cases h
        · split at h
          · exact some.inj h ▸ .refl r.dtxns
          · obtain ⟨r1, h1, h2⟩ := bind_eq_some_iff.mp h
            exact (onlyBits_piggyback r.dtxns p).trans
              ((hdesc _ _ _ h1).trans (parentLoop_bits hdesc v ps r1 r' h2))

theorem addParentsToMap_bits :
    ∀ n v r r', addParentsToMap n v r = some r' → OnlyBits r.dtxns r'.dtxns
  | 0, _, _, _, h => by cases h
  | n + 1, v, r, r', h => by
    obtain ⟨d, -, h⟩ := bind_eq_some_iff.mp h
    exact parentLoop_bits (addParentsToMap_bits n) v _ r r' h

theorem minItfrGraph_bits {dtxns : Dtxns} {t : ℕ} {quick : Bool} {r : Report}
    (h : minItfrGraph dtxns t quick = some r) : OnlyBits dtxns r.dtxns := by
  obtain ⟨d, -, h⟩ := bind_eq_some_iff.mp h
  split at h
  · obtain rfl := some.inj h
    exact OnlyBits.refl dtxns
  · exact addParentsToMap_bits _ t _ r h

/-! ### The depth suffices -/

/-- `r'` comes after `r`: the graph has lost no vertex, the records differ in their bits at most. -/
structure Keeps (r r' : Report) : Prop where
  graph : ∀ id, (r.graph.find id).isSome → (r'.graph.find id).isSome
  dtxns : OnlyBits r.dtxns r'.dtxns

theorem Keeps.trans {a b c : Report} (h : Keeps a b) (h' : Keeps b c) : Keeps a c :=
  ⟨fun id hid => h'.graph id (h.graph id hid), h.dtxns.trans h'.dtxns⟩

theorem Keeps.refl (r : Report) : Keeps r r := ⟨fun _ => id, .refl r.dtxns⟩

theorem Keeps.ids {r r' : Report} (h : Keeps r r') {ids : List ℕ}
    (hids : ∀ id, (r.dtxns.find id).isSome → id ∈ ids) :
    ∀ id, (r'.dtxns.find id).isSome → id ∈ ids := by
  intro id hid
  obtain ⟨d', hd'⟩ := isSome_iff_exists.mp hid
  obtain ⟨d, hd, -⟩ := h.dtxns.find_rev hd'
  exact hids id (isSome_of_eq_some hd)

/-- No record is without a partition. -/
def Placed (dtxns : Dtxns) : Prop := ∀ id d, dtxns.find id = some d → d.partition.elems ≠ []

theorem Keeps.placed {r r' : Report} (h : Keeps r r') (hr : Placed r.dtxns) : Placed r'.dtxns := by
  intro id d' hd'
  obtain ⟨d, hd, bits, rfl⟩ := h.dtxns.find_rev hd'
  exact hr id d hd

/-- How many of the server's transactions are not in the report. -/
def missing (ids : List ℕ) (graph : Graph) : ℕ := ids.countP fun id => (graph.find id).isNone

theorem missing_le {ids : List ℕ} {r r' : Report} (h : Keeps r r') :
    missing ids r'.graph ≤ missing ids r.graph := by
  refine countP_mono_left fun id _ hid => ?_
  rw [isNone_iff_eq_none, ← not_isSome_iff_eq_none] at hid ⊢
  exact mt (h.graph id) hid

theorem keeps_copyParent {r : Report} {ids : List ℕ} {p : ℕ} (hp : r.graph.find p = none)
    (hids : p ∈ ids) (v : ℕ) (d : RccDTxn) :
    Keeps r ⟨r.dtxns.modify p piggyback, copyParent r.graph v p d⟩ ∧
      missing ids (copyParent r.graph v p d) < missing ids r.graph := by
  have hfind : ∀ id, ((copyParent r.graph v p d).find id).isSome ↔
      id = p ∨ (r.graph.find id).isSome := fun id => by
    rw [copyParent, find_modify, find_insert, find_insert]
    rcases eq_or_ne id p with rfl | hid <;> rcases eq_or_ne id v with rfl | hv <;> simp_all
  refine ⟨⟨fun id hid => (hfind id).mpr (.inr hid), onlyBits_piggyback r.dtxns p⟩,
    countP_lt_countP hids (fun id hid => ?_) ?_ ?_⟩
  · rw [isNone_iff_eq_none, ← not_isSome_iff_eq_none] at hid ⊢
    exact fun h => hid ((hfind id).mpr (.inr h))
  · rw [isNone_eq_false_iff]; exact (hfind p).mpr (.inl rfl)
  · rw [hp]; rfl

/-- The call returns when the records are placed and it may go as deep as transactions are missing. -/
def Descends (ids : List ℕ) (n : ℕ) (descend : ℕ → Report → Option Report) : Prop :=
  ∀ p r, (r.dtxns.find p).isSome → Placed r.dtxns → (∀ id, (r.dtxns.find id).isSome → id ∈ ids) →
    missing ids r.graph < n → ∃ r', descend p r = some r' ∧ Keeps r r'

theorem parentLoop_returns {ids : List ℕ} {n : ℕ} {descend : ℕ → Report → Option Report}
    (hdesc : Descends ids n descend) (v : ℕ) : ∀ (ps : List ℕ) (r : Report), Placed r.dtxns →
      (∀ id, (r.dtxns.find id).isSome → id ∈ ids) → missing ids r.graph ≤ n →
      ∃ r', parentLoop descend v ps r = some r' ∧ Keeps r r'
  | [], r, _, _, _ => ⟨r, rfl, .refl r⟩
  | p :: ps, r, hpl, hids, hn => by
    cases hd : r.dtxns.find p with
    | none => exact ⟨r, parentLoop_absent hd, .refl r⟩
    | some d =>
      have hp : p ∈ ids := hids p (by rw [hd, isSome_some])
      rw [parentLoop_cons hd, if_neg (hpl p d hd)]
      by_cases hg : (r.graph.find p).isSome
      · exact ⟨r, if_pos hg, .refl r⟩
      · obtain ⟨hk, hlt⟩ := keeps_copyParent (not_isSome_iff_eq_none.mp hg) hp v d
        rw [if_neg hg]
        by_cases hb : d.piggybacked
        · exact ⟨_, if_pos hb, hk.graph, .refl r.dtxns⟩
        · obtain ⟨r1, h1, hk1⟩ := hdesc p ⟨r.dtxns.modify p piggyback, _⟩
            (by rw [find_modify, if_pos rfl, hd]; rfl) (hk.placed hpl) (hk.ids hids)
            (hlt.trans_le hn)
          obtain ⟨r2, h2, hk2⟩ := parentLoop_returns hdesc v ps r1 (hk1.placed (hk.placed hpl))
            (hk1.ids (hk.ids hids)) ((missing_le hk1).trans (hlt.le.trans hn))
          refine ⟨r2, ?_, hk.trans (hk1.trans hk2)⟩
          rw [if_neg hb, h1, bind_some, h2]

theorem addParentsToMap_returns (ids : List ℕ) : ∀ n, Descends ids n (addParentsToMap n)
  | 0 => fun _ _ _ _ _ hn => absurd hn (Nat.not_lt_zero _)
  | n + 1 => fun p r hp hpl hids hn => by
    obtain ⟨d, hd⟩ := isSome_iff_exists.mp hp
    obtain ⟨r', h, hk⟩ := parentLoop_returns (addParentsToMap_returns ids n) p d.parents.elems r hpl
      hids (Nat.lt_succ_iff.mp hn)
    exact ⟨r', by rw [addParentsToMap, hd, bind_some, h], hk⟩

theorem minItfrGraph_returns {dtxns : Dtxns} {t : ℕ} (hpl : Placed dtxns)
    (ht : (dtxns.find t).isSome) (quick : Bool) : ∃ r, minItfrGraph dtxns t quick = some r := by
  obtain ⟨d, hd⟩ := isSome_iff_exists.mp ht
  rw [minItfrGraph, hd, bind_some]
  by_cases hq : d.parents.elems = [] ∧ quick
  · exact ⟨_, if_pos hq⟩
  · rw [if_neg hq]
    obtain ⟨r, hr, -⟩ := addParentsToMap_returns dtxns.keys.dedup _ t ⟨dtxns, ⟨[(t, d.reportV)]⟩⟩ ht
      hpl (fun id hid => mem_dedup.mpr (mem_keys.mpr hid))
      (Nat.lt_succ_iff.mpr countP_le_length)
    exact ⟨r, hr⟩

/-- Transaction 3 has the parents 1, reported before, and 2. -/
def twoParents : Dtxns :=
  ⟨[(1, { partition := {0}, piggybackedShard := {0} }), (2, { partition := {0} }),
    (3, { partition := {0}, parents := {1, 2} })]⟩

theorem minItfrGraph_returns_two : ∃ r, minItfrGraph twoParents 3 true = some r :=
  have hparts : ∀ e ∈ twoParents.entries, e.2.partition.elems ≠ [] := by decide
  minItfrGraph_returns (fun id d h => hparts (id, d) (Dict.mem_entries_of_find h)) (by decide) true

end Fiss.Rcc
