import Mathlib

/-! A month's bill, in mills. The average that is stored and the bytes that went out are metered in whole GB, and the
storage meter carries what is missing to the minimum, rounded up to a GB. The machine's integers have 64 bits; only the
allowance can leave them. -/

namespace LibreServ.Billing

def bytesPerGB : Int := 1000000000

def egressFreeMultiplier : Int := 3

def millsPerGBStorage : Int := 8

def millsPerGBEgress : Int := 10

def minimumMonthlyMills : Int := 3000

def egressOverageGB (avgStorageBytes egressBytes : Int) : Int :=
  if egressBytes ≤ 0 then 0
  else
    let free := (egressFreeMultiplier * avgStorageBytes).bmod (2 ^ 64)
    let free := if free < 0 then 0 else free
    let excess := egressBytes - free
    if excess ≤ 0 then 0 else excess / bytesPerGB

/-- The GB of storage and of egress that are reported. -/
def meteredQuantities (avgStorageBytes egressBytes : Int) : Int × Int :=
  if avgStorageBytes ≤ 0 then (0, 0)
  else
    let overGB := egressOverageGB avgStorageBytes egressBytes
    let storageGB := avgStorageBytes / bytesPerGB
    let need := minimumMonthlyMills - overGB * millsPerGBEgress
    let topUp := (need + millsPerGBStorage - 1) / millsPerGBStorage
    if 0 < need ∧ storageGB < topUp then (topUp, overGB) else (storageGB, overGB)

def monthMills (avgStorageBytes egressBytes : Int) : Int :=
  if avgStorageBytes ≤ 0 then 0
  else
    let (storageGB, overGB) := meteredQuantities avgStorageBytes egressBytes
    storageGB * millsPerGBStorage + overGB * millsPerGBEgress

/-! ### What a month costs -/

/-- What was used, before the minimum. -/
def usedMills (avgStorageBytes egressBytes : Int) : Int :=
  8 * (avgStorageBytes / 1000000000) + 10 * (max 0 (egressBytes - 3 * avgStorageBytes) / 1000000000)

section

variable {avg egress : Int}

theorem egressOverageGB_eq (havg : 0 < avg) (hegress : 0 ≤ egress) (hfits : 3 * avg < 2 ^ 63) :
    egressOverageGB avg egress = max 0 (egress - 3 * avg) / 1000000000 := by
  have hfree : (egressFreeMultiplier * avg).bmod (2 ^ 64) = 3 * avg := by
    apply Int.bmod_eq_of_le
    · show -((2 ^ 64 : Int) / 2) ≤ 3 * avg
      omega
    · show 3 * avg < ((2 ^ 64 : Int) + 1) / 2
      omega
  rw [egressOverageGB, hfree, bytesPerGB]
  split
  · have hnone : max 0 (egress - 3 * avg) = 0 := by omega
    rw [hnone, Int.zero_ediv]
  have hpos : ¬ 3 * avg < 0 := by omega
  simp only [if_neg hpos]
  split
  · have hnone : max 0 (egress - 3 * avg) = 0 := by omega
    rw [hnone, Int.zero_ediv]
  · have hsome : max 0 (egress - 3 * avg) = egress - 3 * avg := by omega
    rw [hsome]

/-- The bill is what was used, or the smallest sum of whole GB that reaches the minimum. -/
theorem monthMills_cases (havg : 0 < avg) (hegress : 0 ≤ egress) (hfits : 3 * avg < 2 ^ 63) :
    (3000 ≤ usedMills avg egress ∧ monthMills avg egress = usedMills avg egress) ∨
      (usedMills avg egress < 3000 ∧ 3000 ≤ monthMills avg egress ∧ monthMills avg egress ≤ 3006) := by
  have hgb := egressOverageGB_eq havg hegress hfits
  have havg' : ¬ avg ≤ 0 := by omega
  have hstored : 0 ≤ avg / 1000000000 := by omega
  rw [usedMills]
  by_cases htop : 0 < 3000 - egressOverageGB avg egress * 10 ∧
      avg / 1000000000 < (3000 - egressOverageGB avg egress * 10 + 8 - 1) / 8
  · have hmetered : meteredQuantities avg egress =
        ((3000 - egressOverageGB avg egress * 10 + 8 - 1) / 8, egressOverageGB avg egress) := by
      rw [meteredQuantities, if_neg havg']
      exact if_pos htop
    simp only [monthMills, hmetered, millsPerGBStorage, millsPerGBEgress]
    right
    omega
  · have hmetered : meteredQuantities avg egress = (avg / 1000000000, egressOverageGB avg egress) := by
      rw [meteredQuantities, if_neg havg']
      exact if_neg htop
    simp only [monthMills, hmetered, millsPerGBStorage, millsPerGBEgress]
    left
    omega

/-- A month costs what was used and the minimum at least, and less than a GB of storage beyond that. More egress never
makes it cheaper, except that a month which was filled up to the minimum may fall by six mills, and not below it. -/
theorem monthMills_right (avg egress : Int) (havg : 0 < avg) (hegress : 0 ≤ egress) (hfits : 3 * avg < 2 ^ 63) :
    max 3000 (usedMills avg egress) ≤ monthMills avg egress ∧
      monthMills avg egress < max 3000 (usedMills avg egress) + millsPerGBStorage ∧
      ∀ egress', egress ≤ egress' → monthMills avg egress ≤ monthMills avg egress' ∨
          (usedMills avg egress < 3000 ∧ monthMills avg egress ≤ 3006 ∧ 3000 ≤ monthMills avg egress') := by
  have hbill := monthMills_cases havg hegress hfits
  rw [millsPerGBStorage]
  refine ⟨by omega, by omega, fun egress' hmore => ?_⟩
  have hbill' := monthMills_cases havg (hegress.trans hmore) hfits
  have hused : usedMills avg egress ≤ usedMills avg egress' := by
    rw [usedMills, usedMills]
    omega
  omega

theorem monthMills_right_of_small : max 3000 (usedMills 1000000000 6000000000) ≤ monthMills 1000000000 6000000000 ∧
    monthMills 1000000000 6000000000 < max 3000 (usedMills 1000000000 6000000000) + millsPerGBStorage :=
  have h := monthMills_right 1000000000 6000000000 (by decide) (by decide) (by decide)
  ⟨h.1, h.2.1⟩

/-- A fourth GB of egress makes a small month cheaper by six mills. -/
theorem monthMills_falls : monthMills 1000000000 6000000000 = 3006 ∧ monthMills 1000000000 7000000000 = 3000 := by
  decide +kernel

end

end LibreServ.Billing
