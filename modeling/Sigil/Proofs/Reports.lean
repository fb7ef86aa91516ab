import Sigil.Proofs.Fuel

/-!
# What a run reports

`Machine.Adds F m m'` says of the machines before and after an evaluation that all faults reported
between them are faults of evaluation, and of those in `F`. It allows every operation that reports
faults of `F` (`Machine.allows_adds`). The diagnostics of a text that is evaluated are then the
faults of its structure and some of `F` (`Outcome.diagnostic_of_adds`).
-/

namespace Sigil

variable [Generator]

namespace Machine

/-- The faults reported between two machines are faults of evaluation, and belong to `F`. -/
def Adds (F : EvalError → Prop) (m m' : Machine) : Prop :=
  ∀ d, .report d ∈ m'.trace → .report d ∈ m.trace ∨ ∃ e line, d = .eval e line ∧ F e

theorem mem_trace_emit {m : Machine} {e x : Event} (h : x ∈ (m.emit e).trace) :
    x = e ∨ x ∈ m.trace := by
  unfold emit at h
  split at h
  · exact .inr h
  · exact List.mem_cons.1 h

variable {F : EvalError → Prop}

theorem adds_report (m : Machine) {e : EvalError} (he : F e) (line : Nat) :
    Adds F m (m.emit (.report (.eval e line))) := by
  intro d hd
  rcases mem_trace_emit hd with reported | hd
  · cases reported
    exact .inr ⟨e, line, rfl, he⟩
  · exact .inl hd

theorem allows_adds (hF : ∀ limit, F (.depthLimit limit)) : Allows F (Adds F) where
  refl m d hd := .inl hd
  trans h₁ h₂ d hd := (h₂ d hd).elim (h₁ d) .inr
  report m e line he := m.adds_report he line
  print m text d hd := by
    rcases mem_trace_emit hd with printed | hd
    · cases printed
    · exact .inl hd
  set m name v d hd := .inl hd
  draw m random d hd := .inl hd
  freshId m nextId d hd := .inl hd
  frame h := h
  deeper h := h
  exhaust m limit line _ := m.adds_report (hF limit) line

theorem adds_assign (m : Machine) (env : Environment) : Adds F m { m with env } :=
  fun _ hd => .inl hd

theorem lawful_adds : Lawful (Adds fun _ => True) where
  toAllows :=
    { allows_adds fun _ => trivial with report := fun m _ line _ => m.adds_report trivial line }
  assign m _ _ _ _ _ := m.adds_assign _

end Machine

/-- A diagnostic of a text that was evaluated is a fault of its structure, or was added. -/
theorem Outcome.diagnostic_of_adds {F : EvalError → Prop} {i : Interpreter} {m : Machine}
    {v : Value} {errors : List ParseError}
    (h : (i.machine (errors.map fun e => .report (.parse e))).Adds F m) {d : Diagnostic}
    (hd : d ∈ (Outcome.mk v m.trace.reverse).diagnostics) :
    .report d ∈ m.trace ∧
      ((∃ e ∈ errors, d = .parse e) ∨ ∃ e line, d = .eval e line ∧ F e) := by
  obtain ⟨x, hx, hd⟩ := List.mem_filterMap.1 hd
  have reported : .report d ∈ m.trace := by
    cases x with
    | print => cases hd
    | report d' => cases hd; exact List.mem_reverse.1 hx
  refine ⟨reported, (h d reported).imp_left fun before => ?_⟩
  obtain ⟨e, he, e'⟩ := List.mem_map.1 (List.mem_reverse.1 before)
  exact ⟨e, he, (Event.report.inj e').symm⟩

end Sigil
