import SurfaceTape.Graph.Build
import SurfaceTape.Graph.PostOrder
import Std.Data.TreeMap.Lemmas

/-!
# Folding over a graph

Working out a result for every node below a root, from the results of its inputs. A node that is
used several times is worked out once. The step may have effects; they happen in post-order.
-/

set_option autoImplicit false

namespace SurfaceTape

namespace Graph

variable {α β τ : Type} {m : Type → Type} [Monad m] [MonadExceptOf Error m]

/-- Works out one entry and files its result. The step sees the node, its term, and the term with
results in the place of inputs. -/
@[specialize] def foldEntry (f : Nat → Term α Nat → Term α τ → m τ) (results : Std.TreeMap Nat τ)
    (entry : Entry α) : m (Std.TreeMap Nat τ) :=
  match entry.term.map? fun n => results[n]? with
  | none => throw .badNode
  | some term => do
      let result ← f entry.node entry.term term
      return results.insert entry.node result

@[specialize] def foldEntries (entries : List (Entry α)) (root : Nat)
    (f : Nat → Term α Nat → Term α τ → m τ) : m τ := do
  let results ← entries.foldlM (foldEntry f) ∅
  match results[root]? with
  | some result => return result
  | none => throw .badNode

@[specialize] def foldM (g : Graph α) (root : Nat) (f : Nat → Term α Nat → Term α τ → m τ) :
    m τ :=
  match g.postOrder root with
  | .error e => throw e
  | .ok entries => foldEntries entries root f

def eval (g : Graph α) (meaning : Interpretation α β) (root : Nat) : Except Error β :=
  g.foldM root fun _ _ term => pure (meaning.apply term)

def evalAt [Arith α] (g : Graph α) (p : Point α) (root : Nat) : Except Error α :=
  g.eval (.atPoint id p) root

end Graph

namespace Build

variable {α τ : Type}

/-- Works out the root while extending the graph. The nodes that are worked out are those of the
graph at the start. -/
def fold (f : Nat → Term α Nat → Term α τ → Build α τ) (root : Nat) : Build α τ := fun g =>
  match g.postOrder root with
  | .error e => .error e g
  | .ok entries => Graph.foldEntries entries root f g

end Build

end SurfaceTape
