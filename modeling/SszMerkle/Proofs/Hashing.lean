/-
Hashing values and proving what lies below them. However deep a value nests, its root and its proofs
come of the roots and proofs of the nodes in it and of chunks, so they leave a sound store sound.
-/
import SszMerkle.Proofs.Known
import SszMerkle.Value

namespace SszMerkle

variable {h : Hasher} {s t : Store}

/-- From the store on, asking for the root or for any proof keeps stores sound. -/
structure Provable.Keeps (h : Hasher) (s : Store) (p : Provable) : Prop where
  root : ∀ t, s.Later h t → (Store.regime h).Keeps t p.root fun _ _ => True
  prove : ∀ t, s.Later h t → ∀ g, (Store.regime h).Keeps t (p.prove g) fun _ _ => True

namespace Provable.Keeps

variable {p content : Provable} {ps : List Provable}

theorem chunk (c : Root) : (Provable.chunk c).Keeps h s := by
  constructor
  · exact fun _ _ => .pure trivial
  · intro t _ g
    unfold Provable.chunk
    dsimp only
    split
    · exact .pure trivial
    · exact .throw _

theorem node {n : Node} (hn : n.Known h s) : (Provable.node h n).Keeps h s := by
  constructor
  · exact fun t st => (Node.root_keeps (hn.later st)).mono fun _ _ _ _ => trivial
  · exact fun t st g => Node.prove_keeps (hn.later st) g

theorem mixed (hc : content.Keeps h s) (mixin : Root) : (Provable.mixed h content mixin).Keeps h s := by
  constructor
  · exact fun t st => (hc.root t st).reply _
  intro t st g
  unfold Provable.mixed
  dsimp only
  split
  · exact (hc.prove t st .root).reply _
  · split
    · exact (hc.prove t st _).reply _
    split
    · exact (hc.prove t st .root).reply _
    · exact .throw _

theorem flat {leaf : Nat → TreeM Root}
    (hleaf : ∀ i t, s.Later h t → (Store.regime h).Keeps t (leaf i) fun _ _ => True)
    (count limit : Nat) : (Provable.flat h count limit leaf).Keeps h s := by
  constructor
  · exact fun t st => Regime.Keeps.merkleize (fun i u tu => hleaf i u (st.trans tu)) h count limit
  · intro t st g
    exact Regime.Keeps.openTree (fun i u tu => hleaf i u (st.trans tu))
      (fun _ _ _ _ => .pure trivial) h count limit g

/-- Chunks that are there. -/
theorem chunks (leaf : Nat → Root) (count limit : Nat) :
    (Provable.flat h count limit fun i => return leaf i).Keeps h s :=
  flat (fun _ _ _ => .pure trivial) count limit

theorem rootAt (hps : ∀ p ∈ ps, p.Keeps h s) (i : Nat) (t : Store) (st : s.Later h t) :
    (Store.regime h).Keeps t (Provable.rootAt ps i) fun _ _ => True := by
  unfold Provable.rootAt
  split
  · rename_i p hp
    exact (hps p (List.mem_of_getElem? hp)).root t st
  · exact .throw _

theorem proveAt (hps : ∀ p ∈ ps, p.Keeps h s) (i : Nat) (g : Gindex) (t : Store) (st : s.Later h t) :
    (Store.regime h).Keeps t (Provable.proveAt ps i g) fun _ _ => True := by
  unfold Provable.proveAt
  split
  · rename_i p hp
    rw [map_eq_pure_bind]
    exact ((hps p (List.mem_of_getElem? hp)).prove t st g).reply _
  · exact .throw _

theorem parts (hps : ∀ p ∈ ps, p.Keeps h s) (limit : Nat) : (Provable.parts h limit ps).Keeps h s := by
  constructor
  · exact fun t st => Regime.Keeps.merkleize (fun i u tu => rootAt hps i u (st.trans tu)) h ps.length limit
  · intro t st g
    exact Regime.Keeps.openTree (fun i u tu => rootAt hps i u (st.trans tu))
      (fun i g u tu => proveAt hps i g u (st.trans tu)) h ps.length limit g

theorem container (hps : ∀ p ∈ ps, p.Keeps h s) : (Provable.container h ps).Keeps h s := by
  constructor
  · intro t st
    match ps, hps with
    | [], _ => exact .pure trivial
    | [p], hps => exact (hps p (by simp)).root t st
    | [p, q], hps =>
      refine ((hps p (by simp)).root t st).bind fun _ u tu _ => ?_
      exact ((hps q (by simp)).root u (st.trans tu)).reply _
    | p :: q :: r :: ps, hps => exact (parts hps _).root t st
  · exact (parts hps _).prove

end Provable.Keeps

namespace Value

mutual

/-- The nodes in a value. -/
def nodes : Value → List Node
  | node n => [n]
  | container fields => nodesOf fields
  | vector elements => nodesOf elements
  | list _ elements => nodesOf elements
  | union _ value => value.nodes
  | roots _ _ values => nodesOf values
  | _ => []

def nodesOf : List Value → List Node
  | [] => []
  | v :: vs => v.nodes ++ nodesOf vs

end

/-- The nodes in the value are nodes of the store. -/
def Known (h : Hasher) (s : Store) (v : Value) : Prop := ∀ n ∈ v.nodes, n.Known h s

theorem Known.later {v : Value} (hv : v.Known h s) (st : s.Later h t) : v.Known h t :=
  fun n hn => (hv n hn).later st

mutual

theorem provable_keeps : ∀ v : Value, (∀ n ∈ v.nodes, n.Known h s) → (v.provable h).Keeps h s
  | chunk c, _ => .chunk c
  | node n, hn => .node (hn n (List.mem_singleton_self n))
  | basic _ _, _ => .chunk _
  | container fields, hn => .container (provables_keep fields hn)
  | vector elements, hn => .parts (provables_keep elements hn) _
  | list limit elements, hn => .mixed (.parts (provables_keep elements hn) limit) _
  | basicVector _ _, _ => .chunks _ _ _
  | basicList _ _ _, _ => .mixed (.chunks _ _ _) _
  | byteVector _, _ => .chunks _ _ _
  | byteList _ _, _ => .mixed (.chunks _ _ _) _
  | bitvector _, _ => .chunks _ _ _
  | bitlist _ _, _ => .mixed (.chunks _ _ _) _
  | union _ value, hn => .mixed (provable_keeps value hn) _
  | emptyUnion _, _ => .mixed (.chunk .zero) _
  | roots count limit values, hn => by
    refine .flat (fun i t st => ?_) count limit
    split
    · exact Provable.Keeps.rootAt (provables_keep values hn) i t st
    · exact .pure trivial

theorem provables_keep : ∀ vs : List Value, (∀ n ∈ nodesOf vs, n.Known h s) →
    ∀ p ∈ provables h vs, p.Keeps h s
  | [], _ => by
    rw [provables]
    exact nofun
  | v :: vs, hn => by
    rw [nodesOf, List.forall_mem_append] at hn
    rw [provables]
    exact List.forall_mem_cons.2 ⟨provable_keeps v hn.1, provables_keep vs hn.2⟩

end

theorem root_keeps {v : Value} (hv : v.Known h s) :
    (Store.regime h).Keeps s (v.root h) fun _ _ => True :=
  (provable_keeps v hv).root s (.refl h s)

theorem prove_keeps {v : Value} (hv : v.Known h s) (g : Gindex) :
    (Store.regime h).Keeps s (v.prove h g) fun _ _ => True :=
  (provable_keeps v hv).prove s (.refl h s) g

end Value

end SszMerkle
