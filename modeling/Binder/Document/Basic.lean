import Binder.Tree.Basic

/-! Documents: the bindings of a module as they are exchanged with other tools. -/
namespace Binder

structure Document where
  bindings : List (Tree.Node (Option Span))

end Binder
