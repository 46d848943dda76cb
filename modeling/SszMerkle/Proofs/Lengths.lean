/-
The length of proofs. A proof has one sibling a level, whatever roots the store keeps and whichever
hashers they are of: the hashing that a proof takes decides what is in a branch, and never how long it
is. So the lengths need nothing of the store, and add up along a gindex as its depths do.
-/
import SszMerkle.Proofs.Refusal

namespace SszMerkle

variable {h : Hasher} {α β : Type}

/-! ## What work yields -/

/-- Wherever the work starts, if it succeeds, the answer is as described. -/
def Yields (x : TreeM α) (P : α → Prop) : Prop := ∀ s, (Regime.free Store).Keeps s x fun a _ => P a

namespace Yields

variable {x : TreeM α} {k : α → TreeM β} {P : α → Prop} {Q : β → Prop}

/-- What a run has answered is as described. -/
theorem of_run {s t : Store} {a : α} (hx : Yields x P) (hrun : x.run.run s = (.ok a, t)) : P a :=
  (hx s).of_run trivial hrun

theorem any (x : TreeM α) : Yields x fun _ => True := fun _ => Regime.ends_free.2 fun _ _ => trivial

theorem pure {a : α} (ha : P a) : Yields (Pure.pure a) P := fun _ => .pure ha

theorem throw (e : Failure) : Yields (throw e : TreeM α) P := fun _ => .throw e

theorem throw_bind (e : Failure) : Yields ((MonadExcept.throw e : TreeM α) >>= k) Q :=
  fun _ => .throw_bind e

theorem result {r : Result α} (hr : ∀ a, r = .ok a → P a) : Yields (liftM r) P := fun _ => .lift hr

theorem bind (hx : Yields x P) (hk : ∀ a, P a → Yields (k a) Q) : Yields (x >>= k) Q :=
  fun s => (hx s).bind fun a t _ ha => hk a ha t

/-- Whatever the first part of the work yields. -/
theorem after (hk : ∀ a, Yields (k a) Q) : Yields (x >>= k) Q := bind (any x) fun a _ => hk a

end Yields

/-! ## Branches -/

theorem Node.branch_yields {target : Gindex} : ∀ {path : List Bool} {n : Node}, path.length ≤ 64 →
    Yields (n.branch h target path) fun branch => branch.length = path.length
  | [], _, _ => .pure rfl
  | _ :: path, .leaf _ c, h64 => by
    rw [List.length_cons] at h64
    simp only [branch, Hasher.zero_eq h64, liftM_ok, pure_bind]
    split
    · exact .throw_bind _
    · rw [zeroBranch_ok h64]
      exact .pure (by simp)
  | right :: path, .pair _ l r, h64 => by
    rw [List.length_cons] at h64
    rw [branch]
    refine .after fun _ => .bind (branch_yields (by omega)) fun below hbelow => ?_
    exact .pure (by simp [hbelow])

/-- Opening a tree adds the levels below a leaf to those above it. -/
theorem openTree_yields (count : Nat) {limit : Nat} (hl : limit < Word.bound) {g : Gindex}
    (hg : 0 < g.val) (leaf : Nat → TreeM Root) {below : Nat → Gindex → TreeM (Option Proof)}
    (hbelow : ∀ i g, 0 < g.val → Yields (below i g) fun o => ∀ q ∈ o, q.branch.length = g.depth) :
    Yields (openTree h count limit g leaf below) fun p => p.branch.length = g.depth := by
  rcases Nat.lt_or_ge (Word.depthFor limit) g.depth with hd | hd
  · obtain ⟨outer, inner, hsplit, hov, hod, -, hiv, hid, -⟩ := Gindex.splitAt_eq hg hd
    have deep : inner.depth = (inner.depth - 1) + 1 := by omega
    rw [openTree_eq h count hl hg hsplit]
    refine .bind (.any _) fun leaves _ => ?_
    simp only [Gindex.not_isRoot hiv deep, Bool.false_eq_true, if_false]
    split
    · exact .throw_bind _
    refine .bind (hbelow _ inner hiv) fun o ho => ?_
    cases o with
    | none => exact .throw _
    | some q =>
      refine .result fun p hp => ?_
      have hq : q.branch.length = inner.depth := ho q rfl
      unfold Proof.extend at hp
      split at hp
      · cases hp
        rw [List.length_append, hq, Padded.length_proof]
        omega
      · cases hp
  · rw [openTree_eq h count hl hg (Gindex.splitAt_of_le hd)]
    exact .bind (.any _) fun leaves _ => .pure (Padded.length_proof _)

/-! ## Provable values -/

/-- A proof is as long as its gindex is deep. -/
def Provable.Measured (p : Provable) : Prop :=
  ∀ g : Gindex, 0 < g.val → Yields (p.prove g) fun q => q.branch.length = g.depth

namespace Provable.Measured

theorem chunk (c : Root) : (Provable.chunk c).Measured := by
  intro g hg
  unfold Provable.chunk
  dsimp only
  split
  · rename_i hr
    exact .pure ((Gindex.isRoot_iff hg).1 hr).symm
  · exact .throw _

theorem node (n : Node) : (Provable.node h n).Measured := by
  intro g _
  have h64 : g.path.length ≤ 64 := by rw [Gindex.length_path]; exact g.depth_lt.le
  refine .bind (Node.branch_yields h64) fun branch hbranch => .after fun _ => ?_
  exact .pure (hbranch.trans g.length_path)

theorem mixed {content : Provable} (hc : content.Measured) (mixin : Root) :
    (Provable.mixed h content mixin).Measured := by
  intro g hg
  cases hd : g.depth with
  | zero =>
    rw [Gindex.eq_root hg hd]
    exact .after fun _ => .pure rfl
  | succ d =>
    obtain ⟨inner, ht, hv, hid, -⟩ := Gindex.tail?_eq hg hd
    simp only [Provable.mixed, ht]
    split
    · exact .bind (hc inner hv) fun q hq => .pure (by simp [Proof.mixIn, hq, hid])
    split
    · rename_i hr
      rw [Gindex.isRoot_iff hv, hid] at hr
      exact .after fun _ => .pure (by simp [hr])
    · exact .throw _

theorem flat (count : Nat) {limit : Nat} (hl : limit < Word.bound) (leaf : Nat → TreeM Root) :
    (Provable.flat h count limit leaf).Measured := by
  intro g hg
  show Yields (openTree h count limit g leaf fun _ _ => return none) _
  exact openTree_yields count hl hg leaf fun _ _ _ => .pure nofun

theorem parts {ps : List Provable} (hps : ∀ p ∈ ps, p.Measured) {limit : Nat}
    (hl : limit < Word.bound) : (Provable.parts h limit ps).Measured := by
  refine fun g hg => openTree_yields ps.length hl hg (rootAt ps) fun i inner hi => ?_
  unfold proveAt
  split
  · rename_i p hp
    rw [map_eq_pure_bind]
    refine .bind (hps p (List.mem_of_getElem? hp) inner hi) fun q hq => .pure ?_
    rintro _ ⟨⟩
    exact hq
  · exact .throw _

end Provable.Measured

namespace Value

mutual

theorem measured (h : Hasher) : ∀ v : Value, v.Sized → (v.provable h).Measured
  | chunk c, _ => .chunk c
  | node n, _ => .node n
  | basic _ _, _ => .chunk _
  | container fields, ⟨hl, hv⟩ => .parts (all_measured h fields hv) (by rwa [length_provables])
  | vector elements, ⟨hl, hv⟩ => .parts (all_measured h elements hv) (by rwa [length_provables])
  | list _ elements, ⟨hl, hv⟩ => .mixed (.parts (all_measured h elements hv) hl) _
  | basicVector _ _, hl => .flat _ (countOf_lt hl) _
  | basicList _ _ _, hl => .mixed (.flat _ (countOf_lt hl) _) _
  | byteVector _, hl => .flat _ (countOf_lt hl) _
  | byteList _ _, hl => .mixed (.flat _ (countOf_lt hl) _) _
  | bitvector _, hl => .flat _ (countOf_lt hl) _
  | bitlist limit _, hl =>
    .mixed (.flat _ (lt_of_le_of_lt (groups_le limit (by decide)) hl) _) _
  | union _ value, hv => .mixed (measured h value hv) _
  | emptyUnion _, _ => .mixed (.chunk .zero) _
  | roots _ _ _, ⟨hl, _⟩ => .flat _ hl _

theorem all_measured (h : Hasher) : ∀ vs : List Value, AllSized vs →
    ∀ p ∈ provables h vs, p.Measured
  | [], _ => by
    rw [provables]
    exact nofun
  | v :: vs, ⟨hv, hvs⟩ => by
    rw [provables]
    exact List.forall_mem_cons.2 ⟨measured h v hv, all_measured h vs hvs⟩

end

end Value

end SszMerkle
