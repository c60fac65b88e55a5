import Mathlib

/-! The payment transaction (`bench/chBenchmark/payment.cc`), run serially on the tables: the pieces
    that write, with the reads and writes taking effect at once. The pieces before them only read,
    so what they give is part of the command here. Amounts are exact numbers. -/

namespace Fiss.Chopper
open List Option

structure District where
  dId : ℤ
  dWId : ℤ
  dYtd : ℚ
  deriving DecidableEq

structure Customer where
  cId : ℤ
  cDId : ℤ
  cWId : ℤ
  cBalance : ℚ
  cYtdPayment : ℚ
  cData : List Char
  deriving DecidableEq

structure History where
  hKey : ℤ
  hCId : ℤ
  hCDId : ℤ
  hCWId : ℤ
  hDId : ℤ
  hDWId : ℤ
  hDate : ℕ
  hAmount : ℚ
  hData : List Char
  deriving DecidableEq

structure Tables where
  district : List District := []
  customer : List Customer := []
  history : List History := []
  deriving DecidableEq

/-- The inputs of the pieces: `hCId` is the `C_ID` that the history piece gets, `time` the clock. -/
structure PaymentCmd where
  wId : ℤ
  dId : ℤ
  wName : List Char := []
  dName : List Char := []
  cId : ℤ
  cWId : ℤ
  cDId : ℤ
  hCId : ℤ := cId
  hKey : ℤ
  hAmount : ℚ
  time : ℕ := 0

section Rows
variable {R : Type} {p : R → Bool} {f : R → R} {g : R → ℚ} {c : ℚ}

/-- The first row that `Query` matches is rewritten; without one the handler fails. -/
def writeRow (p : R → Bool) (f : R → R) : List R → Option (List R)
  | [] => none
  | r :: rows => if p r then some (f r :: rows) else (writeRow p f rows).map (r :: ·)

theorem sum_writeRow (hf : ∀ r, g (f r) = g r + c) : ∀ {rows rows' : List R},
    writeRow p f rows = some rows' → (rows'.map g).sum = (rows.map g).sum + c
  | [], _, h => by cases h
  | r :: rows, rows', h => by
    rw [writeRow] at h
    split at h
    · rw [← some.inj h]
      simp [hf, add_right_comm]
    · obtain ⟨tail, htail, rfl⟩ := map_eq_some_iff.mp h
      simp [sum_writeRow hf htail, add_assoc]

end Rows

/-- `CHBENCHMARK_PAYMENT_2`: the new value is computed and the old one is written. -/
def payment2 (cmd : PaymentCmd) (t : Tables) : Option Tables :=
  (writeRow (fun r => r.dId = cmd.dId ∧ r.dWId = cmd.wId) (fun r =>
    let bufTemp := r.dYtd
    let _buf := bufTemp + cmd.hAmount
    { r with dYtd := bufTemp }) t.district).map fun rows => { t with district := rows }

/-- `CHBENCHMARK_PAYMENT_4`, with `text` for how an amount is printed. -/
def payment4 (text : ℚ → List Char) (cmd : PaymentCmd) (t : Tables) : Option Tables :=
  (writeRow (fun r => r.cId = cmd.cId ∧ r.cDId = cmd.cDId ∧ r.cWId = cmd.cWId) (fun r =>
    let balance := r.cBalance - cmd.hAmount
    let ytdPayment := r.cYtdPayment + cmd.hAmount
    if cmd.cId % 10 = 0 then
      let ids := [cmd.cId, cmd.cDId, cmd.cWId, cmd.dId, cmd.wId]
      let cData := (ids.flatMap fun i => (toString i).toList) ++ text cmd.hAmount ++ r.cData
      { r with cBalance := balance, cYtdPayment := ytdPayment, cData := cData.take 500 }
    else { r with cBalance := balance, cYtdPayment := ytdPayment }) t.customer).map
      fun rows => { t with customer := rows }

def historyRow (cmd : PaymentCmd) : History where
  hKey := cmd.hKey
  hCId := cmd.hCId
  hCDId := cmd.cDId
  hCWId := cmd.cWId
  hDId := cmd.dId
  hDWId := cmd.wId
  hDate := cmd.time
  hAmount := cmd.hAmount
  hData := cmd.wName ++ "    ".toList ++ cmd.dName

/-- `CHBENCHMARK_PAYMENT_5`. -/
def payment5 (cmd : PaymentCmd) (t : Tables) : Tables :=
  { t with history := t.history ++ [historyRow cmd] }

def payment (text : ℚ → List Char) (t : Tables) (cmd : PaymentCmd) : Option Tables :=
  (payment2 cmd t).bind fun t => (payment4 text cmd t).map (payment5 cmd)

def Tables.dYtd (t : Tables) : ℚ := (t.district.map fun r => r.dYtd).sum

def Tables.cBalance (t : Tables) : ℚ := (t.customer.map fun r => r.cBalance).sum

def Tables.cYtdPayment (t : Tables) : ℚ := (t.customer.map fun r => r.cYtdPayment).sum

/-- What the districts took in is what the customers paid, in all three accounts of it. -/
def Conserved (t t' : Tables) : Prop :=
  ∃ inserted, t'.history = t.history ++ inserted ∧
    t'.dYtd - t.dYtd = t.cBalance - t'.cBalance ∧
    t'.dYtd - t.dYtd = t'.cYtdPayment - t.cYtdPayment ∧
    t'.dYtd - t.dYtd = (inserted.map fun r => r.hAmount).sum

/-- What payments of `amount` in all do to the totals. -/
structure Moved (t t' : Tables) (inserted : List History) (amount : ℚ) : Prop where
  history : t'.history = t.history ++ inserted
  recorded : (inserted.map fun r => r.hAmount).sum = amount
  dYtd : t'.dYtd = t.dYtd
  cBalance : t'.cBalance = t.cBalance - amount
  cYtdPayment : t'.cYtdPayment = t.cYtdPayment + amount

section Runs
variable {text : ℚ → List Char} {t t' : Tables}

theorem payment_moved {cmd : PaymentCmd} (h : payment text t cmd = some t') :
    Moved t t' [historyRow cmd] cmd.hAmount := by
  obtain ⟨t1, h2, h⟩ := bind_eq_some_iff.mp h
  obtain ⟨t2, h4, rfl⟩ := map_eq_some_iff.mp h
  obtain ⟨districts, hd, rfl⟩ := map_eq_some_iff.mp h2
  obtain ⟨customers, hc, rfl⟩ := map_eq_some_iff.mp h4
  refine ⟨rfl, by simp [historyRow], ?_, ?_, ?_⟩
  · exact (sum_writeRow (fun _ => (add_zero _).symm) hd).trans (add_zero _)
  · refine (sum_writeRow (c := -cmd.hAmount) (fun r => ?_) hc).trans (sub_eq_add_neg _ _).symm
    dsimp only
    split <;> exact sub_eq_add_neg _ _
  · refine sum_writeRow (fun r => ?_) hc
    dsimp only
    split <;> rfl

theorem payments_moved : ∀ {cmds : List PaymentCmd} {t : Tables},
    cmds.foldlM (payment text) t = some t' →
      Moved t t' (cmds.map historyRow) (cmds.map fun cmd => cmd.hAmount).sum
  | [], t, h => by
    cases h
    exact ⟨by simp, by simp, rfl, by simp, by simp⟩
  | cmd :: cmds, t, h => by
    obtain ⟨t1, h1, h⟩ := bind_eq_some_iff.mp (foldlM_cons.symm.trans h)
    have hone := payment_moved h1
    have hrest := payments_moved h
    refine ⟨?_, ?_, hrest.dYtd.trans hone.dYtd, ?_, ?_⟩
    · simp [hrest.history, hone.history]
    · simp [← hrest.recorded, ← hone.recorded]
    · rw [hrest.cBalance, hone.cBalance, map_cons, sum_cons, sub_sub]
    · rw [hrest.cYtdPayment, hone.cYtdPayment, map_cons, sum_cons, add_assoc]

/-- Money is conserved over a serial sequence of payments exactly when they come to nothing. -/
theorem payments_conserve_iff {cmds : List PaymentCmd}
    (h : cmds.foldlM (payment text) t = some t') :
    Conserved t t' ↔ (cmds.map fun cmd => cmd.hAmount).sum = 0 := by
  have hmoved := payments_moved h
  rw [Conserved]
  constructor
  · rintro ⟨inserted, -, hbalance, -⟩
    rw [hmoved.dYtd, hmoved.cBalance] at hbalance
    linarith
  · intro hzero
    refine ⟨_, hmoved.history, ?_⟩
    rw [hmoved.dYtd, hmoved.cBalance, hmoved.cYtdPayment, hmoved.recorded, hzero]
    simp

end Runs

/-- A district with one customer. -/
def village : Tables where
  district := [⟨1, 1, 0⟩]
  customer := [⟨1, 1, 1, 0, 0, []⟩]

def pay (amount : ℚ) : PaymentCmd where
  wId := 1
  dId := 1
  cId := 1
  cWId := 1
  cDId := 1
  hKey := 1
  hAmount := amount

/-- The customer's five are in the history and not in the district. -/
theorem payment_not_taken_in : ∃ t', [pay 5].foldlM (payment fun _ => []) village = some t' ∧
    ¬ Conserved village t' := by
  refine ⟨_, rfl, ?_⟩
  rintro ⟨inserted, -, hbalance, -⟩
  exact absurd hbalance (by decide +kernel)

theorem payment_and_refund_conserve : ∃ t',
    [pay 5, pay (-5)].foldlM (payment fun _ => []) village = some t' ∧ Conserved village t' := by
  refine ⟨_, rfl, ?_⟩
  exact (@payments_conserve_iff (fun _ => []) village _ [pay 5, pay (-5)] rfl).mpr
    (by decide +kernel)

end Fiss.Chopper
