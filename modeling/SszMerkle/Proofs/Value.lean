/-
Every value realizes its tree, by induction on how it is nested: a proof that is given, for any
gindex of any value, has the root of the value, and verifies the root that the gindex addresses in
the tree of the value.
-/
import SszMerkle.Value
import SszMerkle.Proofs.Provable

namespace SszMerkle

namespace Tree

/-- Chunks side by side. -/
def chunks (n : Nat) (f : Nat → Root) : List Tree := ((List.range n).map f).map .chunk

/-- Packed values in a tree with room for `limit` chunks. -/
def packed (limit : Nat) (t : BasicType) (vs : List t.Carrier) : Tree :=
  balanced limit (chunks (Chunk.countOf t vs.length) (Chunk.packed t vs))

end Tree

namespace Value

variable {h : Hasher} {s : Store}

/-! ## The tree of a value -/

mutual

/-- The tree of a value: its parts side by side with zeros up to the limit, and to the right of the
content of a list or a union its length or selector. -/
def tree (h : Hasher) : Value → Tree
  | chunk c => .chunk c
  | node n => .ofNode n
  | basic t v => .chunk (Chunk.packed t [v] 0)
  | container fields => .balanced fields.length (trees h fields)
  | vector elements => .balanced elements.length (trees h elements)
  | list limit elements =>
    .pair (.balanced limit (trees h elements)) (.chunk (Chunk.ofLength elements.length))
  | basicVector t vs => .packed (Chunk.countOf t vs.length) t vs
  | basicList t limit vs =>
    .pair (.packed (Chunk.countOf t limit) t vs) (.chunk (Chunk.ofLength vs.length))
  | byteVector bytes => .packed (Chunk.countOf .uint8 bytes.length) .uint8 bytes
  | byteList limit bytes =>
    .pair (.packed (Chunk.countOf .uint8 limit) .uint8 bytes) (.chunk (Chunk.ofLength bytes.length))
  | bitvector bits => .packed (Chunk.countOf .uint8 bits.length) .uint8 bits
  | bitlist limit bits =>
    .pair (.balanced (Chunk.countOfBits limit)
      (Tree.chunks (Chunk.countOfBits (Bitlist.size bits)) (Chunk.ofBitlist bits (Bitlist.size bits))))
      (.chunk (Chunk.ofLength (Bitlist.size bits)))
  | union selector value => .pair (value.tree h) (.chunk (Chunk.ofSelector selector))
  | emptyUnion selector => .pair (.chunk .zero) (.chunk (Chunk.ofSelector selector))
  | roots count limit values =>
    .balanced limit (Tree.chunks count fun i => (Tree.place (trees h values) i).root h)

def trees (h : Hasher) : List Value → List Tree
  | [] => []
  | v :: vs => v.tree h :: trees h vs

end

mutual

/-- Lengths and limits are words, and the nodes are clean. -/
def Sound (h : Hasher) (s : Store) : Value → Prop
  | chunk _ => True
  | node n => n.Clean h s
  | basic _ _ => True
  | container fields => fields.length < Word.bound ∧ AllSound h s fields
  | vector elements => elements.length < Word.bound ∧ AllSound h s elements
  | list limit elements => limit < Word.bound ∧ AllSound h s elements
  | basicVector _ vs => vs.length < Word.bound
  | basicList _ limit _ => limit < Word.bound
  | byteVector bytes => bytes.length < Word.bound
  | byteList limit _ => limit < Word.bound
  | bitvector bits => bits.length < Word.bound
  | bitlist limit _ => limit < Word.bound
  | union _ value => value.Sound h s
  | emptyUnion _ => True
  | roots _ limit values => limit < Word.bound ∧ AllSound h s values

def AllSound (h : Hasher) (s : Store) : List Value → Prop
  | [] => True
  | v :: vs => v.Sound h s ∧ AllSound h s vs

end

/-! ## Realizing it -/

theorem groups_le (n : Nat) {size : Nat} (hs : 0 < size) : Chunk.groups n size ≤ n := by
  unfold Chunk.groups
  have split := Nat.div_add_mod n size
  have le : n / size ≤ size * (n / size) := Nat.le_mul_of_pos_left _ hs
  split <;> omega

theorem countOf_lt {t : BasicType} {n : Nat} (hn : n < Word.bound) :
    Chunk.countOf t n < Word.bound :=
  lt_of_le_of_lt (groups_le n (by cases t <;> decide)) hn

theorem length_provables (h : Hasher) : ∀ vs : List Value, (provables h vs).length = vs.length
  | [] => rfl
  | v :: vs => by rw [provables, List.length_cons, List.length_cons, length_provables h vs]

/-- Chunks that are there, side by side. -/
theorem chunks_realize (f : Nat → Root) (count : Nat) {limit : Nat} (hl : limit < Word.bound) :
    (Provable.flat h count limit fun i => return f i).Realizes h s
      (.balanced limit (Tree.chunks count f)) := by
  refine .flat (by simp) hl fun i hi t _ => ?_
  simp only [List.getElem_map, List.getElem_range]
  exact .pure _

mutual

theorem realizes : ∀ v : Value, v.Sound h s → (v.provable h).Realizes h s (v.tree h)
  | chunk c, _ => .chunk c
  | node _, hn => .node hn
  | basic _ _, _ => .chunk _
  | container fields, ⟨hl, hv⟩ => by
    rw [provable, tree, ← length_provables h fields]
    exact .container (all_realize fields hv) (by rw [length_provables]; exact hl)
  | vector elements, ⟨hl, hv⟩ => by
    rw [provable, tree, Provable.vector, length_provables]
    exact .parts (all_realize elements hv) hl
  | list limit elements, ⟨hl, hv⟩ => by
    rw [provable, tree, Provable.list, length_provables]
    exact .mixed (.parts (all_realize elements hv) hl) _
  | basicVector _ _, hl => chunks_realize _ _ (countOf_lt hl)
  | basicList _ _ _, hl => .mixed (chunks_realize _ _ (countOf_lt hl)) _
  | byteVector _, hl => chunks_realize _ _ (countOf_lt hl)
  | byteList _ _, hl => .mixed (chunks_realize _ _ (countOf_lt hl)) _
  | bitvector _, hl => chunks_realize _ _ (countOf_lt hl)
  | bitlist limit _, hl =>
    .mixed (chunks_realize _ _ (lt_of_le_of_lt (groups_le limit (by decide)) hl)) _
  | union _ value, hv => .mixed (realizes value hv) _
  | emptyUnion _, _ => .mixed (.chunk .zero) _
  | roots count limit values, ⟨hl, hv⟩ => by
    have hps := all_realize values hv
    refine .flat (by simp) hl fun i hi t st => ?_
    simp only [List.getElem_map, List.getElem_range, Tree.root]
    split
    · rename_i hi
      rw [hps.length_eq] at hi
      have place : Tree.place (trees h values) i = (trees h values)[i] := by simp [Tree.place, hi]
      rw [place]
      exact Provable.Realizes.leaves hps i hi t st
    · rename_i hi
      rw [hps.length_eq] at hi
      have place : Tree.place (trees h values) i = .chunk .zero := by
        simp [Tree.place, Nat.not_lt.1 hi]
      rw [place]
      exact .pure _

theorem all_realize : ∀ vs : List Value, AllSound h s vs →
    List.Forall₂ (Provable.Realizes h s) (provables h vs) (trees h vs)
  | [], _ => .nil
  | v :: vs, ⟨hv, hvs⟩ => .cons (realizes v hv) (all_realize vs hvs)

end

/-- A proof that a value gives for a gindex has the root of the value, one sibling a level, and
verifies what the gindex addresses in the tree of the value. -/
theorem prove_verifies_tree {v : Value} (hv : v.Sound h s) {g : Gindex} (hg : 0 < g.val) {p : Proof}
    {s' : Store} (hp : (v.prove h g).run.run s = (.ok p, s')) :
    s.Later h s' ∧ (∀ t, s.Later h t → ((v.root h).run.run t).1 = .ok p.root) ∧
      p.root = (v.tree h).root h ∧ p.branch.length = g.depth ∧
      ∃ node, (v.tree h).seek h g.path = .ok node ∧
        verifyBranch h p.branch g p.root node = true := by
  have realized := realizes v hv
  obtain ⟨r, t, hrun, later, -, hproves⟩ := realized.prove s (.refl h s) g hg trivial
  have hrt : (r, t) = (.ok p, s') := hrun.symm.trans hp
  cases hrt
  obtain ⟨node, hseek, hroot, hshows⟩ := Tree.proves_ok.1 hproves
  refine ⟨later, fun u su => ?_, hroot, ?_, node, hseek, (Proof.Shows.iff_verifyBranch hg).1 hshows⟩
  · obtain ⟨_, _, hu, -, -, rfl⟩ := realized.root u su trivial
    rw [hroot]
    exact congrArg Prod.fst hu
  · rw [hshows.length, Gindex.length_path]

/-- The value of a union in a list in a container, beside a pair whose root was kept before. -/
theorem prove_nested_union :
    let pair : Node := .pair 0 (.leaf (.made 1) .zero) (.leaf (.made 2) (Chunk.ofLength 1))
    let s : Store := ⟨#[pair], (∅ : Std.HashMap Nat Root).insert 0 (pair.digest .sha256)⟩
    let v : Value := .container
      [.list 3 [.basic .uint64 (5 : UInt64), .union 1 (.basic .uint64 (7 : UInt64))], .node pair,
        .bitlist 9 [5]]
    let g : Gindex := ⟨66, by decide⟩
    ∃ p s', (v.prove .sha256 g).run.run s = (.ok p, s') ∧ p.branch.length = 6 ∧
      ((v.root .sha256).run.run s).1 = .ok p.root ∧
      verifyBranch .sha256 p.branch g p.root (Chunk.packed .uint64 [(7 : UInt64)] 0) = true := by
  intro pair s v g
  have clean : pair.Clean .sha256 s := by
    refine ⟨rfl, fun c hc => ?_, trivial, trivial⟩
    rw [Std.HashMap.getElem?_insert_self] at hc
    exact (Option.some.inj hc).symm
  have sound : v.Sound .sha256 s :=
    ⟨by decide, ⟨by decide, trivial, trivial, trivial⟩, clean, show 9 < Word.bound by decide, trivial⟩
  have hpath : g.path = [false, false, false, false, true, false] := by decide
  have hseek : (v.tree .sha256).seek .sha256 g.path = .ok (Chunk.packed .uint64 [(7 : UInt64)] 0) := by
    have depth : Word.depthFor 3 = 2 := by decide
    simp [hpath, v, tree, trees, Tree.balanced, depth, Tree.grid, Tree.seek, Tree.place, Tree.root]
  obtain ⟨r, s', hrun, -, -, hproves⟩ := (realizes v sound).prove s (.refl _ s) g (by decide) trivial
  rw [Tree.Proves, hseek] at hproves
  obtain ⟨p, rfl, -, -⟩ := hproves
  obtain ⟨-, hroot, -, hlen, node, hnode, hverify⟩ := prove_verifies_tree sound (by decide) hrun
  rw [hseek] at hnode
  cases hnode
  exact ⟨p, s', hrun, hlen.trans (by decide), hroot s (.refl _ s), hverify⟩

end Value

end SszMerkle
