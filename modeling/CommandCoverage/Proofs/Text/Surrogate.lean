import CommandCoverage.Text.Surrogate

namespace CommandCoverage.Text

variable {s : Surrogates} {text : String} {cs : List Char} {n : Nat}

theorem encodeFaultFrom_eq_none_iff : encodeFaultFrom s n cs = none ↔ ∀ c ∈ cs, s c = none := by
  induction cs generalizing n with
  | nil => simp [encodeFaultFrom]
  | cons c cs ih => cases hc : s c <;> simp [encodeFaultFrom, hc, ih]

theorem encodeFault?_eq_none_iff : encodeFault? s text = none ↔ ∀ c ∈ text.toList, s c = none :=
  encodeFaultFrom_eq_none_iff

theorem encodeFault?_none (text : String) : encodeFault? (fun _ ↦ none) text = none :=
  encodeFault?_eq_none_iff.2 fun _ _ ↦ rfl

end CommandCoverage.Text
