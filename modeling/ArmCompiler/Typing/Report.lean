import ArmCompiler.Diagnostic

/-!
# Reports

Checking never stops at a problem: it notes a diagnostic and goes on. A *report* is the outcome
of such a check, a value together with the diagnostics noted on the way, oldest first. Reports
form a monad whose sequencing runs the second check after the first and concatenates what they
noted.
-/

namespace ArmCompiler

/-- The outcome of a check: a value and the diagnostics noted on the way to it. -/
structure Report (α : Type) where
  value : α
  diagnostics : List Diagnostic := []

namespace Report

variable {α β : Type}

instance : Monad Report where
  pure a := { value := a }
  bind r f :=
    let s := f r.value
    { value := s.value, diagnostics := r.diagnostics ++ s.diagnostics }

@[ext] theorem ext {r s : Report α} (value : r.value = s.value)
    (diagnostics : r.diagnostics = s.diagnostics) : r = s := by
  cases r; cases s; simp_all

@[simp] theorem value_pure (a : α) : (pure a : Report α).value = a := rfl

@[simp] theorem diagnostics_pure (a : α) : (pure a : Report α).diagnostics = [] := rfl

@[simp] theorem value_bind (r : Report α) (f : α → Report β) :
    (r >>= f).value = (f r.value).value := rfl

@[simp] theorem diagnostics_bind (r : Report α) (f : α → Report β) :
    (r >>= f).diagnostics = r.diagnostics ++ (f r.value).diagnostics := rfl

@[simp] theorem value_map (f : α → β) (r : Report α) : (f <$> r).value = f r.value := rfl

@[simp] theorem diagnostics_map (f : α → β) (r : Report α) :
    (f <$> r).diagnostics = r.diagnostics := List.append_nil _

instance : LawfulMonad Report := LawfulMonad.mk' _
  (fun r => by ext1 <;> simp)
  (fun a f => by ext1 <;> simp)
  (fun r f g => by ext1 <;> simp)

/-- Notes one problem. -/
def note (problem : Problem) (span : Span) : Report Unit :=
  { value := (), diagnostics := [⟨problem, span⟩] }

/-- Notes a problem when a condition holds. -/
def noteIf (condition : Bool) (problem : Problem) (span : Span) : Report Unit :=
  if condition then note problem span else pure ()

/-- Notes that a type differs from the one wanted. -/
def noteMismatch (expected actual : Ty) (span : Span) : Report Unit :=
  note (.mismatch expected none actual) span

/-- Notes a mismatch when two types disagree. An invalid type on either side stands for a
problem that was noted before, so nothing is noted for it. -/
def expect (expected actual : Ty) (span : Span) : Report Unit :=
  if expected.isValid && actual.isValid && !expected.agrees actual then
    noteMismatch expected actual span
  else
    pure ()

end Report

end ArmCompiler
