/-
Branches read from the root. A proof leads from a node to the root, and its branch is checked from
the node upward; the trees of nested values come apart from the root downward, so what a proof shows
is stated over the path of its node. A proof under a mixed-in chunk has one more step, and a proof
extended by another shows what the other shows, at the joined path.
-/
import SszMerkle.Proofs.Opening

namespace SszMerkle

variable {h : Hasher}

/-! ## Folding along a path -/

/-- The root over a node at a path, given the siblings on the path, the root's children first. -/
def foldPath (h : Hasher) : (path : List Bool) → (siblings : List Root) → Root → Root
  | right :: path, sibling :: siblings, node =>
    if right then h.combine sibling (foldPath h path siblings node)
    else h.combine (foldPath h path siblings node) sibling
  | _, _, node => node

@[simp] theorem foldPath_nil (siblings : List Root) (node : Root) :
    foldPath h [] siblings node = node := by
  cases siblings <;> rfl

theorem foldPath_append : ∀ {path path' : List Bool} {siblings siblings' : List Root} {node : Root},
    path.length = siblings.length → foldPath h (path ++ path') (siblings ++ siblings') node =
      foldPath h path siblings (foldPath h path' siblings' node)
  | [], _, [], _, _, _ => by simp
  | right :: path, path', sibling :: siblings, siblings', node, e => by
    simp only [List.length_cons, Nat.add_right_cancel_iff] at e
    simp only [List.cons_append, foldPath, foldPath_append e]

/-- Folding a branch upward from a gindex is folding along its path. -/
theorem foldBranch_eq_foldPath : ∀ {branch : List Root} {g : Gindex} {node : Root}, 0 < g.val →
    branch.length = g.depth → foldBranch h branch g node = foldPath h g.path branch.reverse node
  | [], g, node, hg, hd => by
    rw [Gindex.eq_root hg hd.symm]
    rfl
  | sibling :: rest, g, node, hg, hd => by
    obtain ⟨hpd, -⟩ := g.depth_position_parent hg hd.symm
    have hlen : rest.length = g.parent.depth := hpd.symm
    rw [foldBranch, foldBranch_eq_foldPath (g.parent_pos hg hd.symm) hlen, g.path_parent hg hd.symm,
      List.reverse_cons, foldPath_append (by simp [hlen])]
    cases g.isLeftChild <;> rfl

/-! ## What a proof shows -/

/-- A proof shows that `node` sits at a path under its root. -/
structure Proof.Shows (h : Hasher) (p : Proof) (path : List Bool) (node : Root) : Prop where
  length : p.branch.length = path.length
  fold : foldPath h path p.branch.reverse node = p.root

namespace Proof.Shows

variable {p q : Proof} {path path' : List Bool} {node : Root} {g : Gindex}

theorem root (c : Root) : Shows h ⟨[], c⟩ [] c := ⟨rfl, rfl⟩

/-- A proof for a gindex verifies exactly what it shows. -/
theorem iff_verifyBranch (hg : 0 < g.val) :
    p.Shows h g.path node ↔ verifyBranch h p.branch g p.root node = true := by
  unfold verifyBranch
  rw [Bool.and_eq_true, beq_iff_eq, beq_iff_eq]
  constructor
  · rintro ⟨hl, hf⟩
    rw [Gindex.length_path] at hl
    exact ⟨hl, by rw [foldBranch_eq_foldPath hg hl, hf]⟩
  · rintro ⟨hl, hf⟩
    exact ⟨by rw [Gindex.length_path, hl], by rw [← foldBranch_eq_foldPath hg hl, hf]⟩

theorem mixIn (hp : p.Shows h path node) (chunk : Root) :
    (p.mixIn h chunk).Shows h (false :: path) node := by
  unfold Proof.mixIn
  constructor
  · simp [hp.length]
  · simp only [List.reverse_append, List.reverse_cons, List.reverse_nil, List.nil_append,
      List.cons_append, foldPath, Bool.false_eq_true, if_false, hp.fold]

/-- A proof of a node below a node that another proof shows. -/
theorem extend (hp : p.Shows h path q.root) (hq : q.Shows h path' node) :
    Shows h ⟨q.branch ++ p.branch, p.root⟩ (path ++ path') node := by
  constructor
  · simp [hp.length, hq.length, Nat.add_comm]
  · rw [List.reverse_append, foldPath_append (by simp [hp.length]), hq.fold, hp.fold]

end Proof.Shows

/-- The branch of a reference tree shows the reference root. -/
theorem Padded.proof_shows {depth : Nat} {leaf : Nat → Root} {g : Gindex} (hg : 0 < g.val)
    (hle : g.depth ≤ depth) :
    (Padded.proof h depth leaf g).Shows h g.path (Padded.rootAt h depth leaf g) :=
  (Proof.Shows.iff_verifyBranch hg).2 (Padded.verifyBranch_proof hg hle)

end SszMerkle
