/-
How deep a tree can be filled. Down to depth 64 filling gives a tree with the nodes at the first places of
its bottom and zero at all others, or refuses more nodes than there are places; no halving and no zero
tree on the way is out of range. Below that no tree is made: one half of it has more places than a word
counts, and there is no zero root for the whole. The first of these is the halt of checked arithmetic;
unchecked, the filling would go on with a half that has wrapped.
-/
import SszMerkle.Proofs.Breach
import SszMerkle.Proofs.Filled

namespace SszMerkle.Node

variable {h : Hasher} {d m : Nat} {n t : Node} {xs : List Node}

/-! ## What is at the bottom -/

/-- At the digits of each of the first places of level `d` there is a node, one after the other; every
other place lies under the stand-in of the zero tree that is left from there on, or is one itself. Level
64 has places too, but no addresses for them. -/
structure Bears (h : Hasher) (d : Nat) (t : Node) (xs : List Node) : Prop where
  nodes : ∀ i (hi : i < xs.length) (g : Gindex), t.follow g (Gindex.digits d i) = .ok xs[i]
  zeros : ∀ i, xs.length ≤ i → i < 2 ^ d → ∀ g : Gindex, ∃ upper lower,
    Gindex.digits d i = upper ++ lower ∧ t.follow g upper = .ok (h.standIn lower.length)

theorem Filled.bears (ht : Filled h d t xs) : Bears h d t xs :=
  ⟨fun _ hi _ => ht.row.follow hi, fun _ hle hi g => ht.follow_past g hle hi⟩

/-! ## Down to depth 64 -/

/-- The work fills a tree with the nodes, above which it makes nodes and does nothing else, or refuses
them since there is no room. -/
def FillsOrRefuses (h : Hasher) (d : Nat) (xs : List Node) (x : TreeM Node) : Prop :=
  (xs.length ≤ 2 ^ d → ∀ s, ∃ t u, x.run.run s = (.ok t, u) ∧ s.Builds u ∧ Bears h d t xs) ∧
  (2 ^ d < xs.length → x = throw (.overCapacity xs.length (2 ^ d)))

theorem Raises.bears {x : TreeM Node} (hx : Raises h x d xs) (s : Store) :
    ∃ t u, x.run.run s = (.ok t, u) ∧ s.Builds u ∧ Bears h d t xs := by
  obtain ⟨t, u, hrun, su, built⟩ := hx.exists_run s
  exact ⟨t, u, hrun, su, built.filled.bears⟩

/-- As many nodes as a word counts have room at depth 64, so where they have none the depth is less. -/
theorem le_63_of_full {length : Nat} (h64 : d ≤ 64) (hlen : length < Word.bound) (full : 2 ^ d < length) :
    d ≤ 63 := by
  rcases h64.lt_or_eq with h | rfl
  · omega
  · exact absurd hlen (Nat.not_lt.2 full.le)

theorem ofList_fillsOrRefuses (h64 : d ≤ 64) (hne : xs ≠ []) (hlen : xs.length < Word.bound) :
    FillsOrRefuses h d xs (ofList h d xs) :=
  ⟨fun room => (ofList_raises h64 hne room).bears,
    fun full => ofList_refused (le_63_of_full h64 hlen full) full⟩

theorem replicatePad_fillsOrRefuses (h64 : d ≤ 64) (hlen : m < Word.bound) :
    FillsOrRefuses h d (List.replicate m n) (replicatePad h n d m) := by
  constructor <;> rw [List.length_replicate]
  · exact fun room => (replicatePad_raises_of_le h64 room).bears
  · exact fun full => replicatePad_refused (le_63_of_full h64 hlen full) full

/-! ## Below -/

/-- From depth 64 on the places are more than a word counts. -/
theorem places?_of_deep (hd : 64 ≤ d) : places? d = none := if_neg (Nat.not_lt.2 hd)

theorem checkRoom_of_deep (hd : 64 ≤ d) (length : Nat) : checkRoom length d = .ok () := by
  rw [checkRoom, places?_of_deep hd]

theorem pivot_of_deep (hd : 64 ≤ d) : pivot d = .error (.breach .overflow) := by
  rw [pivot, places?_of_deep hd]

section Deeper

variable (deep : 64 < d)
include deep

theorem ofList_of_deep (hne : xs ≠ []) : ofList h d xs = throw (.breach .overflow) := by
  obtain ⟨x, rest, rfl⟩ := List.exists_cons_of_ne_nil hne
  obtain ⟨k, rfl⟩ := Nat.exists_eq_succ_of_ne_zero (Nat.ne_of_gt (Nat.zero_lt_of_lt deep))
  rw [ofList, checkRoom_of_deep deep.le, liftM_ok, pure_bind, pivot_of_deep (Nat.le_of_lt_succ deep),
    liftM_error, throw_bind_eq]

theorem replicatePad_of_deep : replicatePad h n d m =
    throw (.breach (if m = 0 then .zeroDepth d else .overflow)) := by
  have uncounted : places? d ≠ some m := by rw [places?_of_deep deep.le]; nofun
  rw [replicatePad.eq_def]
  simp only [checkRoom_of_deep deep.le, liftM_ok, pure_bind, if_neg uncounted]
  split
  · -- nothing to fill in: the zero tree of the whole depth is asked for
    have none : h.zero d = .error (.breach (.zeroDepth d)) := dif_neg (by omega)
    rw [Hasher.zeroLeaf, none]
    rfl
  · obtain ⟨k, rfl⟩ := Nat.exists_eq_succ_of_ne_zero (Nat.ne_of_gt (Nat.zero_lt_of_lt deep))
    simp only [pivot_of_deep (Nat.le_of_lt_succ deep), liftM_error]
    exact throw_bind_eq _ _

end Deeper

/-! ## All depths -/

/-- Whatever the depth, filling in no list of nodes is refused as such. Down to depth 64 every other
number of nodes a word counts, be they of a list or one node so many times, fills a tree with the nodes at
the first places and zero at the others, or is refused for want of room. Below that filling breaks the
terms it is under: there is no zero tree so deep, and no number for half of the places, where checked
arithmetic halts. -/
theorem fills_to_depth_64 (h : Hasher) (d : Nat) :
    ofList h d [] = throw .emptyContents ∧
    (d ≤ 64 →
      (∀ xs, xs ≠ [] → xs.length < Word.bound → FillsOrRefuses h d xs (ofList h d xs)) ∧
      ∀ n m, m < Word.bound → FillsOrRefuses h d (List.replicate m n) (replicatePad h n d m)) ∧
    (64 < d →
      (∀ xs, xs ≠ [] → ofList h d xs = throw (.breach .overflow)) ∧
      ∀ n m, replicatePad h n d m = throw (.breach (if m = 0 then .zeroDepth d else .overflow))) := by
  refine ⟨by rw [ofList], fun h64 => ⟨fun xs hne hlen => ?_, fun n m hm => ?_⟩,
    fun deep => ⟨fun xs hne => ?_, fun n m => ?_⟩⟩
  · exact ofList_fillsOrRefuses h64 hne hlen
  · exact replicatePad_fillsOrRefuses h64 hm
  · exact ofList_of_deep deep hne
  · exact replicatePad_of_deep deep

/-- The greatest number of nodes at depth 64 leaves one place, which holds zero. -/
theorem fills_all_places_but_one :
    let n : Node := .leaf (.made 0) (Chunk.ofLength 1)
    ∃ t u, (replicatePad .sha256 n 64 (2 ^ 64 - 1)).run.run .empty = (.ok t, u) ∧
      t.follow .root (Gindex.digits 64 (2 ^ 64 - 2)) = .ok n ∧
      ∃ upper lower, Gindex.digits 64 (2 ^ 64 - 1) = upper ++ lower ∧
        t.follow .root upper = .ok (Hasher.sha256.standIn lower.length) := by
  intro n
  obtain ⟨-, filled, -⟩ := fills_to_depth_64 .sha256 64
  obtain ⟨room, -⟩ := (filled le_rfl).2 n (2 ^ 64 - 1) (by decide)
  rw [List.length_replicate] at room
  obtain ⟨t, u, hrun, -, bears⟩ := room (by decide) .empty
  have last : 2 ^ 64 - 2 < (List.replicate (2 ^ 64 - 1) n).length := by
    rw [List.length_replicate]
    decide
  have found := bears.nodes _ last .root
  rw [List.getElem_replicate] at found
  have left := bears.zeros (2 ^ 64 - 1) (by rw [List.length_replicate]) (by decide) .root
  exact ⟨t, u, hrun, found, left⟩

/-- Two levels further down one node is not filled in, and there is no failure to tell of it. -/
theorem not_always_unbroken_fill :
    ¬ ∀ (h : Hasher) (d : Nat), (∀ n m, m < Word.bound → TreeM.Unbroken (replicatePad h n d m)) ∧
      ∀ xs : List Node, xs.length < Word.bound → TreeM.Unbroken (ofList h d xs) := by
  intro always
  have unbroken := (always .sha256 66).1 (.leaf (.made 0) .zero) 1 (by decide)
  rw [replicatePad_of_deep (by decide), TreeM.Unbroken.iff_run] at unbroken
  exact unbroken .empty .overflow rfl

end SszMerkle.Node
