import LibreServ.Paths
import LibreServ.Runs
import LibreServ.Tally

/-! The download limit of a share link. A call of `Pack` reserves the size of the pack that it sends, with one statement
that finds the link under its limit; when it is through, another statement swaps the reservation for what was sent.
Calls run at once, and each of their statements is a step of its own. What is stored stays as it is meanwhile; a pack's
object is as long as its row says. -/

namespace LibreServ.ShareLinks

open List Table
open LibreServ.Files (Text)

def shareEgressFallbackCap : Nat := 2 * 2 ^ 40

def isIdChar (ch : Char) : Bool := ('0' ≤ ch && ch ≤ '9') || ('a' ≤ ch && ch ≤ 'f')

/-- `storagePackIDPattern`. -/
def isPackID (id : Text) : Bool := id.length = 64 && id.all isIdChar

/-- The sizes in `storage_packs`, for the link's Luna. -/
abbrev Packs := Table Text Nat

/-- `shareEgressCap`. -/
def shareEgressCap (packs : Packs) : Nat :=
  let stored := packs.tally fun _ size => size
  if stored = 0 then shareEgressFallbackCap else 3 * stored

/-- What is read for the reservation: nothing for a pack that is not stored. -/
def packSize (packs : Packs) (packID : Text) : Nat :=
  if isPackID packID then (packs.get? packID).getD 0 else 0

inductive Call where
  /-- The link is resolved. -/
  | resolved (packID : Text)
  | limited (packID : Text) (limit : Nat)
  | sized (packID : Text) (limit size : Nat)
  /-- `writePack` has sent some of the pack; a refusal sends nothing. -/
  | sending (packID : Text) (reserved sent : Nat)
  | refused
  | finished (sent : Nat)
  deriving DecidableEq

structure State where
  /-- `egress_bytes` of the link. -/
  egressBytes : Int
  calls : Table Nat Call

namespace State

def empty : State := ⟨0, Table.empty⟩

def setCall (s : State) (k : Nat) (c : Call) : State := { s with calls := s.calls.put k c }

end State

inductive Action where
  /-- A request for a pack arrives. -/
  | resolveShare (k : Nat) (packID : Text)
  | readLimit (k : Nat)
  | readSize (k : Nat)
  | reserve (k : Nat)
  | send (k : Nat) (n : Nat)
  /-- The answer ends, at any point, and the reservation is swapped. -/
  | finish (k : Nat)

/-- The reservation is swapped for what was actually sent. -/
def swap (egressBytes delta : Int) : Int := if delta = 0 then egressBytes else max 0 (egressBytes + delta)

open State in
def step (packs : Packs) (s : State) : Action → Option State
  | .resolveShare k packID => if s.calls.get? k = none then some (s.setCall k (.resolved packID)) else none
  | .readLimit k =>
    match s.calls.get? k with
    | some (.resolved packID) => some (s.setCall k (.limited packID (shareEgressCap packs)))
    | _ => none
  | .readSize k =>
    match s.calls.get? k with
    | some (.limited packID limit) => some (s.setCall k (.sized packID limit (packSize packs packID)))
    | _ => none
  | .reserve k =>
    match s.calls.get? k with
    | some (.sized packID limit size) =>
      if s.egressBytes < limit then
        some { egressBytes := s.egressBytes + size, calls := s.calls.put k (.sending packID size 0) }
      else some (s.setCall k .refused)
    | _ => none
  | .send k n =>
    match s.calls.get? k with
    | some (.sending packID reserved sent) =>
      if sent + n ≤ packSize packs packID then some (s.setCall k (.sending packID reserved (sent + n))) else none
    | _ => none
  | .finish k =>
    match s.calls.get? k with
    | some (.sending _ reserved sent) =>
      some { egressBytes := swap s.egressBytes (sent - reserved), calls := s.calls.put k (.finished sent) }
    | _ => none

/-- Sent by calls that are through. -/
def Call.settled : Call → Nat
  | .finished sent => sent
  | _ => 0

/-- Reserved by calls that are not. -/
def Call.reservation : Call → Nat
  | .sending _ reserved _ => reserved
  | _ => 0

def Call.sent : Call → Nat
  | .sending _ _ sent => sent
  | .finished sent => sent
  | _ => 0

namespace State

variable (s : State)

def settled : Nat := s.calls.tally fun _ c => c.settled

def reserved : Nat := s.calls.tally fun _ c => c.reservation

def sent : Nat := s.calls.tally fun _ c => c.sent

end State

/-- The size of the largest pack. -/
def largest (packs : Packs) : Nat := (packs.rows.map Prod.snd).foldr max 0

/-! ### What a run keeps -/

variable {packs : Packs} {s t : State} {k : Nat} {c c' : Call}

theorem packSize_le (packs : Packs) (packID : Text) : packSize packs packID ≤ largest packs := by
  have hmem : ∀ {sizes : List Nat} {n : Nat}, n ∈ sizes → n ≤ sizes.foldr max 0 := by
    intro sizes n hn
    induction sizes with
    | nil => cases hn
    | cons m sizes ih =>
      rcases mem_cons.mp hn with rfl | hn
      · exact Nat.le_max_left _ _
      · exact (ih hn).trans (Nat.le_max_right _ _)
  rw [packSize]
  split
  · cases hrow : packs.get? packID with
    | none => exact Nat.zero_le _
    | some size => exact hmem (mem_map.mpr ⟨(packID, size), mem_rows.mpr hrow, rfl⟩)
  · exact Nat.zero_le _

theorem shareEgressCap_pos (packs : Packs) : 0 < shareEgressCap packs := by
  simp only [shareEgressCap, shareEgressFallbackCap]
  split <;> omega

/-- What a call holds agrees with what is stored. -/
def Call.Fits (packs : Packs) : Call → Prop
  | .limited _ limit => limit = shareEgressCap packs
  | .sized packID limit size => limit = shareEgressCap packs ∧ size = packSize packs packID
  | .sending packID reserved sent => reserved = packSize packs packID ∧ sent ≤ reserved
  | _ => True

structure State.Inv (packs : Packs) (s : State) : Prop where
  fits : ∀ k c, s.calls.get? k = some c → c.Fits packs
  counted : s.egressBytes = s.settled + s.reserved
  under : s.egressBytes < shareEgressCap packs + largest packs

theorem inv_empty (packs : Packs) : State.empty.Inv packs where
  fits := by
    intro k c hc
    cases hc
  counted := rfl
  under := by
    have hpos := shareEgressCap_pos packs
    show (0 : Int) < _
    omega

section

variable (h : s.Inv packs)

include h

theorem fits_put (hfits : c'.Fits packs) :
    ∀ j d, (s.calls.put k c').get? j = some d → d.Fits packs := by
  intro j d hd
  rw [get?_put] at hd
  split at hd
  · cases hd
    exact hfits
  · exact h.fits j d hd

/-- A call goes on and leaves the link's count as it is. -/
theorem State.Inv.setCall (hc : s.calls.get? k = some c) (hfits : c'.Fits packs)
    (hsettled : c'.settled = c.settled) (hreserved : c'.reservation = c.reservation) : (s.setCall k c').Inv packs where
  fits := fits_put h hfits
  counted := by
    have h₁ := tally_replace hc c' fun _ c => c.settled
    have h₂ := tally_replace hc c' fun _ c => c.reservation
    have hcounted := h.counted
    rw [State.settled, State.reserved] at hcounted
    show s.egressBytes = ((s.calls.put k c').tally fun _ c => c.settled : Nat) +
      ((s.calls.put k c').tally fun _ c => c.reservation : Nat)
    omega
  under := h.under

theorem State.Inv.newCall (hnew : s.calls.get? k = none) (packID : Text) :
    (s.setCall k (.resolved packID)).Inv packs where
  fits := fits_put h trivial
  counted := by
    have h₁ := tally_put_of_none hnew (.resolved packID) fun _ c => c.settled
    have h₂ := tally_put_of_none hnew (.resolved packID) fun _ c => c.reservation
    have hcounted := h.counted
    show s.egressBytes = ((s.calls.put k (.resolved packID)).tally fun _ c => c.settled : Nat) +
      ((s.calls.put k (.resolved packID)).tally fun _ c => c.reservation : Nat)
    rw [h₁, h₂]
    exact hcounted
  under := h.under

theorem State.Inv.reserve {packID : Text} {limit size : Nat}
    (hc : s.calls.get? k = some (.sized packID limit size)) (hunder : s.egressBytes < limit) :
    State.Inv packs { egressBytes := s.egressBytes + size, calls := s.calls.put k (.sending packID size 0) } := by
  obtain ⟨hlimit, hsize⟩ : limit = shareEgressCap packs ∧ size = packSize packs packID := h.fits k _ hc
  refine ⟨fits_put h ⟨hsize, Nat.zero_le _⟩, ?_, ?_⟩
  · have h₁ := tally_replace hc (.sending packID size 0) fun _ c => c.settled
    have h₂ := tally_replace hc (.sending packID size 0) fun _ c => c.reservation
    have hcounted := h.counted
    simp only [State.settled, State.reserved, Call.settled, Call.reservation] at hcounted h₁ h₂ ⊢
    omega
  · have hle := packSize_le packs packID
    show s.egressBytes + size < _
    omega

/-- The reservation is at least what was sent, so the count is never cut at zero. -/
theorem State.Inv.finish {packID : Text} {reserved sent : Nat}
    (hc : s.calls.get? k = some (.sending packID reserved sent)) :
    State.Inv packs { egressBytes := swap s.egressBytes (sent - reserved), calls := s.calls.put k (.finished sent) } := by
  obtain ⟨-, hsent⟩ : reserved = packSize packs packID ∧ sent ≤ reserved := h.fits k _ hc
  have h₁ := tally_replace hc (.finished sent) fun _ c => c.settled
  have h₂ := tally_replace hc (.finished sent) fun _ c => c.reservation
  have hheld := le_tally hc fun _ c => c.reservation
  have hcounted := h.counted
  have hunder := h.under
  simp only [State.settled, State.reserved, Call.settled, Call.reservation] at hcounted h₁ h₂ hheld
  have hswap : swap s.egressBytes (sent - reserved) = s.egressBytes + (sent - reserved) := by
    rw [swap]
    split <;> omega
  rw [hswap]
  refine ⟨fits_put h trivial, ?_, ?_⟩
  · simp only [State.settled, State.reserved, Call.settled, Call.reservation]
    omega
  · show s.egressBytes + (sent - reserved) < _
    omega

theorem State.Inv.step {a : Action} (hs : ShareLinks.step packs s a = some t) : t.Inv packs := by
  cases a with
  | resolveShare k packID =>
    simp only [ShareLinks.step] at hs
    split at hs
    · rename_i hnew
      cases hs
      exact h.newCall hnew packID
    · cases hs
  | readLimit k =>
    simp only [ShareLinks.step] at hs
    split at hs
    · rename_i packID hc
      cases hs
      exact h.setCall hc rfl rfl rfl
    · cases hs
  | readSize k =>
    simp only [ShareLinks.step] at hs
    split at hs
    · rename_i packID limit hc
      have hlimit : limit = shareEgressCap packs := h.fits k _ hc
      cases hs
      exact h.setCall hc ⟨hlimit, rfl⟩ rfl rfl
    · cases hs
  | reserve k =>
    simp only [ShareLinks.step] at hs
    split at hs
    · rename_i packID limit size hc
      split at hs
      · rename_i hunder
        cases hs
        exact h.reserve hc hunder
      · cases hs
        exact h.setCall hc trivial rfl rfl
    · cases hs
  | send k n =>
    simp only [ShareLinks.step] at hs
    split at hs
    · rename_i packID reserved sent hc
      obtain ⟨hreserved, -⟩ : reserved = packSize packs packID ∧ sent ≤ reserved := h.fits k _ hc
      split at hs
      · rename_i hmore
        cases hs
        exact h.setCall hc ⟨hreserved, by omega⟩ rfl rfl
      · cases hs
    · cases hs
  | finish k =>
    simp only [ShareLinks.step] at hs
    split at hs
    · rename_i packID reserved sent hc
      cases hs
      exact h.finish hc
    · cases hs

theorem State.Inv.sent_le : (s.sent : Int) ≤ s.egressBytes := by
  have hsum : s.sent ≤ s.settled + s.reserved := by
    rw [State.sent, State.settled, State.reserved, Table.tally, Table.tally, Table.tally, ← sum_map_add]
    apply sum_le_sum
    intro r hr
    have hfits := h.fits r.1 r.2 (mem_rows.mp hr)
    cases hcall : r.2 with
    | sending packID reserved sent =>
      rw [hcall] at hfits
      simpa only [Call.sent, Call.settled, Call.reservation, Nat.zero_add] using hfits.2
    | _ => simp only [Call.sent, Call.settled, Call.reservation, Nat.add_zero, le_refl]
  rw [h.counted]
  omega

end

/-- However the calls on a link interleave, its count is what was sent by those that are through and what the others
reserved, and all that was ever sent stays under the limit and one pack. -/
theorem link_downloads_bounded (packs : Packs) {acts : List Action}
    (hr : Runs.run (step packs) acts State.empty = some s) :
    s.egressBytes = s.settled + s.reserved ∧ s.sent < shareEgressCap packs + largest packs := by
  have hinv : s.Inv packs := Runs.always (fun _ _ _ h hs => h.step hs) (inv_empty packs) hr
  have hsent := hinv.sent_le
  have hunder := hinv.under
  exact ⟨hinv.counted, by omega⟩

def packName : Text := List.replicate 64 'a'

def onePack : Packs := Table.empty.put packName 10

/-- Two calls for a pack of ten bytes; one breaks off after seven, the other goes on. -/
def twoCalls : List Action :=
  [.resolveShare 0 packName, .resolveShare 1 packName, .readLimit 0, .readLimit 1, .readSize 1, .readSize 0, .reserve 0,
    .reserve 1, .send 0 7, .send 1 4, .finish 0]

theorem two_downloads_bounded : ∃ s, Runs.run (step onePack) twoCalls State.empty = some s ∧ s.egressBytes = 17 ∧
    s.egressBytes = s.settled + s.reserved ∧ s.sent < shareEgressCap onePack + largest onePack := by
  have hrun : (Runs.run (step onePack) twoCalls State.empty).map (·.egressBytes) = some 17 := by decide +kernel
  obtain ⟨s, hs, hcount⟩ := Option.map_eq_some_iff.mp hrun
  exact ⟨s, hs, hcount, link_downloads_bounded onePack hs⟩

end LibreServ.ShareLinks
