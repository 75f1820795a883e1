import Binder.Proofs.Module.Concluding

/-! What names mean in a module. A name that a binding defines stands for what the module declares under
it, whatever the prelude has; all other names mean what they mean in the prelude. -/
namespace Binder

open Binder.Tree (Expr)

namespace Build

open Context

variable {c : Context} {bindings : List Expr}

theorem furnish_names (h : c.Entered bindings) :
    Ends furnish c fun _ c' => c'.Named (Tree.definedNames bindings) := by
  obtain ⟨name, rfl⟩ := h
  have hnamed := names_named name bindings
  refine Ends.bind ⟨(), _, declareValues_entered name bindings, ?_⟩
  apply (makeTypes_ends (declared_named name bindings)).mono
  rintro _ c' ⟨-, hresolves⟩
  have hinfers := hresolves.infers
  exact hnamed.congr hinfers.root hinfers.values hinfers.constants

theorem enter_furnish_names (name : String) (root : Expr) :
    Ends (do enter root; furnish) (.initial name)
      fun _ c => c.Named (Tree.definedNames root.bindings) := by
  apply Ends.bind
  apply (enter_ends name root).mono
  rintro _ c ⟨hentered, -⟩
  exact furnish_names hentered

end Build

theorem Context.Outcome.named {name : String} {root : Expr} {i m c : Context} {s : Inference.State}
    (h : Outcome name root i m s c) : m.Named (Tree.definedNames root.bindings) :=
  ((Build.enter_furnish_names name root).of_eq h.furnishes).congr h.infers.root h.infers.values
    h.infers.constants

end Binder
