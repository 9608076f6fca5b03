/-!
# Replacing entries

Vectors are read and written at indices that carry their bound, so that neither
can miss: `Vector.get` reads, and `replaceAt` writes.
-/

namespace MarkovDecision

variable {α : Type} {n : Nat}

/-- The vector with one entry replaced. -/
def replaceAt (v : Vector α n) (i : Fin n) (x : α) : Vector α n := v.set i x

/-- The vector with two entries exchanged. -/
def exchange (v : Vector α n) (i j : Fin n) : Vector α n :=
  replaceAt (replaceAt v i (v.get j)) j (v.get i)

/-- **An entry of the new vector** is the new one where it was replaced, and else the old one. -/
@[simp] theorem get_replaceAt (v : Vector α n) (i j : Fin n) (x : α) :
    (replaceAt v i x).get j = if i = j then x else v.get j := by
  show (v.set i x)[j.val] = if i = j then x else v[j.val]
  rw [Vector.getElem_set]
  simp only [Fin.ext_iff]

end MarkovDecision
