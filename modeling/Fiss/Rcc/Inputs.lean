import Fiss.Rcc.Pieces

/-! The inputs of a piece that waits: where the value of a variable comes from, and when the piece
    becomes ready. -/

namespace Fiss.Rcc
open Option List Dict
open SimpleCommand (offer offers)

/-! ### Where the value of a variable comes from -/

section

variable {c : SimpleCommand} {x : ℕ} {output : List (ℕ × Value)}

/-- The piece still waits for `x`. -/
def SimpleCommand.missing (c : SimpleCommand) (x : ℕ) : Prop :=
  c.input.inputVarReady.find x = some false

/-- `x` has arrived, with the value `v`. -/
def SimpleCommand.holds (c : SimpleCommand) (x : ℕ) (v : Value) : Prop :=
  c.input.inputVarReady.find x = some true ∧ c.input.values.find x = some v

theorem offer_holds {v : Value} (h : c.holds x v) (y : ℕ) (u : Value) : (c.offer y u).holds x v := by
  rw [offer, TxnWorkspace.offer]
  split
  · next hcond =>
    have hxy : x ≠ y := by
      rintro rfl
      simp [h.1] at hcond
    exact ⟨(find_set_ne _ hxy _).trans h.1, (find_set_ne _ hxy _).trans h.2⟩
  · exact h

theorem offers_holds {v : Value} (h : c.holds x v) : (c.offers output).holds x v := by
  induction output generalizing c with
  | nil => exact h
  | cons e output ih => exact ih (offer_holds h e.1 e.2)

theorem input_offers_congr {c' : SimpleCommand} (h : c.input = c'.input) (l : List (ℕ × Value)) :
    (c.offers l).input = (c'.offers l).input := by
  induction l generalizing c c' with
  | nil => exact h
  | cons e l ih =>
    have hfirst : (c.offer e.1 e.2).input = (c'.offer e.1 e.2).input := by
      rw [offer, offer, h]
    exact ih hfirst

theorem input_offers_append {c' : SimpleCommand} {o : List (ℕ × Value)}
    (h : c'.input = (c.offers o).input) (l : List (ℕ × Value)) :
    (c'.offers l).input = (c.offers (o ++ l)).input := by
  rw [input_offers_congr h l, offers, offers, offers, foldl_append]

theorem offer_missing_self (h : c.missing x) (hx : x ∈ c.input.keys)
    (hready : c.input.pieceInputReady = false) (v : Value) : (c.offer x v).holds x v := by
  have hcond : c.input.pieceInputReady = false ∧ x ∈ c.input.keys ∧
      (c.input.inputVarReady.find x).getD false = false := ⟨hready, hx, by rw [h]; rfl⟩
  rw [offer, TxnWorkspace.offer, if_pos hcond]
  exact ⟨find_set_self .., find_set_self ..⟩

theorem offer_missing_other (h : c.missing x) {y : ℕ} (hxy : x ≠ y) (v : Value) :
    (c.offer y v).missing x := by
  rw [offer, TxnWorkspace.offer]
  split
  · exact (find_set_ne _ hxy _).trans h
  · exact h

theorem offers_missing (h : c.missing x) (hx : x ∈ c.input.keys) (output : List (ℕ × Value)) :
    (c.offers output).missing x ∨ ∃ v, output.lookup x = some v ∧ (c.offers output).holds x v := by
  induction output generalizing c with
  | nil => exact .inl h
  | cons e output ih =>
    cases hready : c.input.pieceInputReady with
    | true => rw [offers_of_ready hready]; exact .inl h
    | false =>
      rcases eq_or_ne x e.1 with rfl | hxe
      · exact .inr ⟨e.2, by rw [lookup_cons, beq_self_eq_true],
          offers_holds (c := c.offer e.1 e.2) (offer_missing_self h hx hready e.2)⟩
      · rw [lookup_cons, beq_eq_false_iff_ne.mpr hxe]
        exact ih (offer_missing_other h hxe e.2) (by rw [← keys_offers c [e]] at hx; exact hx)

theorem not_missing_of_readied (h : c.input.pieceInputReady = false)
    (h' : (c.offers output).input.pieceInputReady = true) : ¬ (c.offers output).missing x := by
  induction output generalizing c with
  | nil => exact absurd h' (by rw [offers, foldl_nil, h]; simp)
  | cons e output ih =>
    cases hready : (c.offer e.1 e.2).input.pieceInputReady with
    | false => exact ih hready h'
    | true =>
      have hall := all_of_offer_ready h hready
      have heq : (c.offer e.1 e.2).offers output = c.offer e.1 e.2 := offers_of_ready hready
      intro hmiss
      rw [← heq] at hall
      exact Bool.noConfusion (all_eq_true.mp hall _ (mem_entries_of_find hmiss))

end

/-! ### Inputs as they are declared -/

/-- Inputs as the coordinator makes them: a waiting piece has an entry for each variable it declares,
    and a piece waits exactly if an entry is not set. -/
structure TxnWorkspace.Declared (ws : TxnWorkspace) : Prop where
  nodup : ws.inputVarReady.keys.Nodup
  keys : ws.pieceInputReady = false → ∀ x, x ∈ ws.keys ↔ (ws.inputVarReady.find x).isSome
  ready : ws.pieceInputReady = ws.inputVarReady.entries.all fun e => e.2

section Declared

variable {c : SimpleCommand} {ws : TxnWorkspace} {x : ℕ} {v : Value} {l l' : List (ℕ × Value)}

theorem offer_declared (h : ws.Declared) (x : ℕ) (v : Value) : (ws.offer x v).Declared := by
  rw [TxnWorkspace.offer]
  split
  · next hcond =>
    refine ⟨nodup_keys_set h.nodup x true, fun _ y => ?_, rfl⟩
    rw [h.keys hcond.1 y, find_set]
    split
    · next hy =>
      rw [hy]
      exact iff_of_true ((h.keys hcond.1 x).mp hcond.2.1) rfl
    · exact Iff.rfl
  · exact h

section
variable (h : c.input.Declared)
include h

theorem offers_declared (l : List (ℕ × Value)) : (c.offers l).input.Declared := by
  induction l generalizing c with
  | nil => exact h
  | cons e l ih => exact ih (c := c.offer e.1 e.2) (offer_declared h e.1 e.2)

theorem ready_iff : c.input.pieceInputReady = true ↔ ∀ x, ¬ c.missing x := by
  rw [h.ready, List.all_eq_true]
  constructor
  · exact fun hall x hx => Bool.noConfusion (hall _ (mem_entries_of_find hx))
  · intro hno e he
    by_contra hfalse
    refine hno e.1 ?_
    rw [SimpleCommand.missing, find_of_mem_entries h.nodup he, eq_false_of_ne_true hfalse]

theorem waiting_of_missing (hx : c.missing x) :
    c.input.pieceInputReady = false ∧ x ∈ c.input.keys := by
  have hwait : c.input.pieceInputReady = false :=
    eq_false_of_ne_true fun hready => (ready_iff h).mp hready x hx
  refine ⟨hwait, (h.keys hwait x).mpr ?_⟩
  rw [show c.input.inputVarReady.find x = some false from hx]
  rfl

theorem offers_takes (hx : c.missing x) (hv : l.lookup x = some v) : (c.offers l).holds x v := by
  induction l generalizing c with
  | nil => cases hv
  | cons e l ih =>
    obtain ⟨hwait, hkey⟩ := waiting_of_missing h hx
    rw [lookup_cons] at hv
    rcases eq_or_ne x e.1 with rfl | hxe
    · rw [beq_self_eq_true] at hv
      obtain rfl := some.inj hv
      exact offers_holds (c := c.offer e.1 e.2) (offer_missing_self hx hkey hwait e.2)
    · rw [beq_eq_false_iff_ne.mpr hxe] at hv
      exact ih (offer_declared h e.1 e.2) (offer_missing_other hx hxe e.2) hv

theorem offers_keeps (hx : ¬ c.missing x) (l : List (ℕ × Value)) :
    ¬ (c.offers l).missing x ∧ (c.offers l).input.values.find x = c.input.values.find x := by
  induction l generalizing c with
  | nil => exact ⟨hx, rfl⟩
  | cons e l ih =>
    have hfirst : ¬ (c.offer e.1 e.2).missing x ∧
        (c.offer e.1 e.2).input.values.find x = c.input.values.find x := by
      rw [SimpleCommand.missing, offer, TxnWorkspace.offer]
      split
      · next hcond =>
        have hxe : x ≠ e.1 := by
          rintro rfl
          obtain ⟨b, hb⟩ := isSome_iff_exists.mp ((h.keys hcond.1 e.1).mp hcond.2.1)
          have hfalse := hcond.2.2
          rw [hb, getD_some] at hfalse
          exact hx (hb.trans (congrArg some hfalse))
        rw [find_set_ne _ hxe, find_set_ne _ hxe]
        exact ⟨hx, rfl⟩
      · exact ⟨hx, rfl⟩
    obtain ⟨hno, hval⟩ := ih (c := c.offer e.1 e.2) (offer_declared h e.1 e.2) hfirst.1
    exact ⟨hno, hval.trans hfirst.2⟩

theorem offers_ready_iff : (c.offers l).input.pieceInputReady = true ↔
    ∀ x, c.missing x → (l.lookup x).isSome := by
  rw [ready_iff (offers_declared h l)]
  constructor
  · intro hno x hx
    rcases offers_missing hx (waiting_of_missing h hx).2 l with hmiss | ⟨v, hv, -⟩
    · exact absurd hmiss (hno x)
    · rw [hv]; rfl
  · intro hall x
    by_cases hx : c.missing x
    · obtain ⟨v, hv⟩ := isSome_iff_exists.mp (hall x hx)
      intro hmiss
      cases hmiss.symm.trans (offers_takes h hx hv).1
    · exact (offers_keeps h hx l).1

theorem offers_same_iff (hall : ∀ x, c.missing x → (l'.lookup x).isSome) :
    ((c.offers l).input.pieceInputReady = true ∧
      ∀ x, (c.offers l).input.values.find x = (c.offers l').input.values.find x) ↔
    ∀ x, c.missing x → l.lookup x = l'.lookup x := by
  constructor
  · rintro ⟨hready, hsame⟩ x hx
    obtain ⟨v, hv⟩ := isSome_iff_exists.mp ((offers_ready_iff h).mp hready x hx)
    obtain ⟨v', hv'⟩ := isSome_iff_exists.mp (hall x hx)
    rw [hv, hv', ← (offers_takes h hx hv).2, ← (offers_takes h hx hv').2]
    exact hsame x
  · intro heq
    refine ⟨(offers_ready_iff h).mpr fun x hx => by rw [heq x hx]; exact hall x hx, fun x => ?_⟩
    by_cases hx : c.missing x
    · obtain ⟨v', hv'⟩ := isSome_iff_exists.mp (hall x hx)
      rw [(offers_takes h hx hv').2, (offers_takes h hx ((heq x hx).trans hv')).2]
    · rw [(offers_keeps h hx l).2, (offers_keeps h hx l').2]

end

end Declared

end Fiss.Rcc
