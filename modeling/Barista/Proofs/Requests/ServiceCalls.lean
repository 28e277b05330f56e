/-
When the status asks for a service, and whether the service is given.

The mode asks for one by the wear first, and then by the waste, while the
service itself wants waste only. A service leaves none, and up to 90 percent
of the wear: so a machine that was worn out may go on asking, and be refused
until something is brewed again (`Machine.not_every_call_answered`). Over a
run from delivery on this is the one exception (`Machine.call_answered`).
-/
import Barista.Proofs.Requests.Ledger
import Barista.Proofs.Requests.Recovery
import Barista.Status

namespace Barista

open Binary64

/-! ## What a service leaves -/

section

variable {m after : Machine}

/-- Repairable, and no more worn than a service leaves it if there is no waste. -/
structure Machine.Rested (m : Machine) : Prop extends m.Repairable where
  wear_le : m.waste.toNat = 0 → m.wear ≤ 90

theorem Machine.rested_fresh : fresh.Rested := ⟨repairable_fresh, fun _ => by decide +kernel⟩

/-- **A request leaves a machine rested**: a drink leaves waste, and a service takes wear away. -/
theorem Request.CarriedOut.rested {r : Request} {report : Report} (h : m.Rested)
    (done : r.CarriedOut m after report) : after.Rested := by
  refine ⟨done.repairable h.toRepairable, fun hempty => ?_⟩
  cases done with
  | brewed _ effect =>
    rw [effect.waste] at hempty
    omega
  | refilled _ effect _ =>
    rw [effect.frame] at hempty ⊢
    exact h.wear_le hempty
  | serviced _ effect =>
    rw [effect.wear]
    exact (Machine.reduced_between h.sound.wear_between _).1.high

end

namespace Machine

variable {m : Machine}

theorem Rested.call_of_empty (h : m.Rested) (hempty : m.waste.toNat = 0)
    (hcall : m.status.mode = .error ∨ m.status.mode = .maintenance) :
    m.status.mode = .maintenance ∧ m.isBroken = false ∧ 70 < m.wear := by
  have hwhole := not_broken_of_wear_le (h.wear_le hempty)
  have hroom : ¬ criticalWaste ≤ m.waste := by
    rw [UInt32.le_iff_toNat_le, hempty]
    decide
  have hmode : m.status.mode = if m.needsMaintenance then .maintenance else .normal := by
    simp only [status, mode, hwhole, h.idle, hroom, Bool.false_eq_true, if_false]
  rw [hmode] at hcall ⊢
  split at hcall
  · next hworn =>
    rw [if_pos hworn]
    exact ⟨rfl, hwhole, of_decide_eq_true hworn⟩
  · rcases hcall with hnormal | hnormal <;> cases hnormal

/-! ## What is brewed after it -/

/-- There was a service, and nothing was brewed after the last one. -/
def servedLast (log : List Entry) : Bool :=
  log.any (·.isService) && !(log.rtakeWhile (!·.isService)).any (·.isBrew)

/-- The waste tank is empty after a service, until something is brewed. -/
theorem waste_eq_zero_iff {last : Machine} {requests : List Request}
    (h : m.after (requests.map Action.request) = some last) (hwaste : 0 < m.waste.toNat) :
    last.waste.toNat = 0 ↔ servedLast (m.log requests) = true := by
  have hlast := waste_log h
  have hbrews : ((m.log requests).rtakeWhile (!·.isService)).countP (·.isBrew) = 0 ↔
      ((m.log requests).rtakeWhile (!·.isService)).any (·.isBrew) = false := by
    rw [List.countP_eq_zero, List.any_eq_false]
  rw [servedLast, Bool.and_eq_true, Bool.not_eq_true', ← hbrews]
  dsimp only at hlast
  cases hserved : (m.log requests).any (·.isService) with
  | true =>
    rw [hserved, if_pos rfl] at hlast
    simp only [true_and]
    omega
  | false =>
    rw [hserved, if_neg Bool.false_ne_true] at hlast
    simp only [Bool.false_eq_true, false_and, iff_false]
    omega

/-! ## The call -/

theorem failed_of_empty (hidle : m.isBrewing = false) (hempty : m.waste.toNat = 0) :
    (Maintenance.preconditions m).failed = ["waste present"] := by
  have hwaste : ¬ 0 < m.waste := by
    rw [UInt32.lt_iff_toNat_lt, hempty]
    decide
  rw [Conditions.failed, Maintenance.preconditions, Conditions.entries_ofList (by simp)]
  simp [hidle, hwaste]

/-- **A call for a service is answered**, unless the machine has just had one. On a machine that has
been through any requests since delivery and is in a mode that asks for a service, the conditions of
a service are met, so that it is carried out as long as it can be counted, but for one case: there
was a service and nothing was brewed since. Then the machine is not broken but worn, by more than 70
and at most 90 percent, and a service is refused because there is no waste, and for no other
reason. -/
theorem call_answered {requests : List Request}
    (h : fresh.after (requests.map Action.request) = some m)
    (hcall : m.status.mode = .error ∨ m.status.mode = .maintenance) :
    ((Maintenance.preconditions m).allMet = true ↔ servedLast (fresh.log requests) = false) ∧
      (servedLast (fresh.log requests) = false → m.maintenanceCount.toNat < 4294967295 →
        ∀ wanted, ((Request.maintain wanted).perform m).succeeded = true) ∧
      (servedLast (fresh.log requests) = true →
        m.status.mode = .maintenance ∧ m.isBroken = false ∧ 70 < m.wear ∧ m.wear ≤ 90 ∧
          ∀ wanted, (Request.maintain wanted).perform m =
            .refused (.preconditionsFailed .maintenance ["waste present"]) m) := by
  have hrested : m.Rested := after_induction (fun _ _ _ _ => Request.CarriedOut.rested) h rested_fresh
  have hempty := waste_eq_zero_iff h (by decide)
  have hwaste : 0 < m.waste.toNat ↔ servedLast (fresh.log requests) = false := by
    rw [← Bool.not_eq_true, ← hempty, Nat.pos_iff_ne_zero]
  refine ⟨?_, fun hdue hcount wanted => ?_, fun hserved => ?_⟩
  · rw [Maintenance.allMet_iff, hwaste, and_iff_right hrested.idle]
  · obtain ⟨report, after, hdone, -⟩ := Maintenance.perform_of_waste hrested.sound hrested.idle
      (hwaste.2 hdue) hcount wanted
    rw [hdone]
    rfl
  · have hnone := hempty.2 hserved
    obtain ⟨hmode, hwhole, hworn⟩ := hrested.call_of_empty hnone hcall
    refine ⟨hmode, hwhole, hworn, hrested.wear_le hnone, fun wanted => ?_⟩
    have hfailed := failed_of_empty hrested.idle hnone
    have hunmet : ¬ (Maintenance.preconditions m).allMet = true :=
      Conditions.not_allMet_of_mem_failed (hfailed ▸ List.mem_singleton_self _)
    have hrefused := Request.perform_eq_refused (r := .maintain wanted) hunmet
    rwa [Request.preconditions, hfailed] at hrefused

/-- Four espressos with all the sugar there is wear a machine by 82.4 percent, and then there is the
least of services. -/
def stillWorn : List Request :=
  let espresso := Request.brew .permissive ⟨.espresso, 200, false⟩ 0
  let sugar := Request.refill ⟨.sugar, .toCapacity⟩
  [espresso, sugar, espresso, sugar, espresso, sugar, espresso,
    .maintain ⟨.diagnostic, false, false⟩]

/-- The call for a service before it is answered; the one after it is not. -/
theorem call_answered_stillWorn :
    (∃ m, fresh.after ((stillWorn.take 7).map Action.request) = some m ∧
      ((Request.maintain ⟨.diagnostic, false, false⟩).perform m).succeeded = true) ∧
    ∃ m, fresh.after (stillWorn.map Action.request) = some m ∧ 70 < m.wear ∧
      (Request.maintain ⟨.deepCleaning, true, true⟩).perform m =
        .refused (.preconditionsFailed .maintenance ["waste present"]) m := by
  have hdue : (fresh.after ((stillWorn.take 7).map Action.request)).any (fun m =>
      m.status.mode = .maintenance && m.maintenanceCount = 0) = true := by decide +kernel
  have hserved : (fresh.after (stillWorn.map Action.request)).any (fun m =>
      m.status.mode = .maintenance) = true := by decide +kernel
  obtain ⟨m, hm, hstate⟩ := (Option.any_eq_true _ _).1 hdue
  obtain ⟨m', hm', hcalls⟩ := (Option.any_eq_true _ _).1 hserved
  simp only [Bool.and_eq_true, decide_eq_true_eq] at hstate
  obtain ⟨hcall, hcount⟩ := hstate
  obtain ⟨-, hanswered, -⟩ := call_answered hm (.inr hcall)
  obtain ⟨-, -, hrefused⟩ := call_answered hm' (.inr (of_decide_eq_true hcalls))
  obtain ⟨-, -, hworn, -, hrefused⟩ := hrefused (by decide +kernel)
  exact ⟨⟨m, hm, hanswered (by decide +kernel) (by rw [hcount]; decide) _⟩, m', hm', hworn,
    hrefused _⟩

/-- Not every call for a service is answered: a worn machine may have been serviced already. -/
theorem not_every_call_answered :
    ¬ ∀ (requests : List Request) (m : Machine),
      fresh.after (requests.map Action.request) = some m →
      m.status.mode = .error ∨ m.status.mode = .maintenance →
      (Maintenance.preconditions m).allMet = true := by
  intro hall
  have hrun : (fresh.after (stillWorn.map Action.request)).any (fun m =>
      m.status.mode = .maintenance && !(Maintenance.preconditions m).allMet) = true := by
    decide +kernel
  obtain ⟨m, hm, hstate⟩ := (Option.any_eq_true _ _).1 hrun
  simp only [Bool.and_eq_true, Bool.not_eq_true', decide_eq_true_eq] at hstate
  obtain ⟨hcall, hunmet⟩ := hstate
  rw [hall stillWorn m hm (.inr hcall)] at hunmet
  cases hunmet

end Machine

end Barista
