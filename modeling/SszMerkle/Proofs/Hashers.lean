/-
Trees under more than one hasher. A pair keeps one root, that of the hasher it was first hashed under,
and answers with it whichever hasher asks. So an answer is a mixture: each pair is combined by the
hasher that was there first, and by that of the call only where there was none. It is the answer of the
hasher itself as long as no other was there before.
-/
import SszMerkle.MerkleList
import SszMerkle.Proofs.Given
import SszMerkle.Proofs.Provable

namespace SszMerkle

variable {h : Hasher} {s t : Store}

/-! ## Trees of several hashers -/

namespace Node

/-- Whether the pair of that number is in the tree. -/
def has : Node → Nat → Bool
  | leaf _ _, _ => false
  | pair i l r, j => i == j || l.has j || r.has j

/-- The root of a tree whose pairs have hashers of their own; `h` is for those that have none. -/
def mixed (owner : Nat → Option Hasher) (h : Hasher) : Node → Root
  | leaf _ c => c
  | pair i l r => ((owner i).getD h).combine (l.mixed owner h) (r.mixed owner h)

/-- The nodes beside a path as far as it can be followed, the root's children first. -/
def passed : (path : List Bool) → Node → List Node
  | right :: path, pair _ l r => (if right then l else r) :: (if right then r else l).passed path
  | _, _ => []

/-- The roots beside a path, lowest first, when `root` says those of the nodes. Past a leaf there are
zero trees. -/
def gathered (h : Hasher) (root : Node → Root) (path : List Bool) (n : Node) : List Root :=
  (List.range (path.length - (n.passed path).length)).map (zeroRoot h.combine) ++
    ((n.passed path).map root).reverse

variable {i j : Nat} {l r m n p : Node} {owner owner' : Nat → Option Hasher} {h' : Hasher}

theorem has_pair : (pair i l r).has j = true ↔ i = j ∨ l.has j = true ∨ r.has j = true := by
  simp [has, or_assoc]

theorem forall_has_pair {P : Nat → Prop} : (∀ j, (pair i l r).has j → P j) ↔
    P i ∧ (∀ j, l.has j → P j) ∧ ∀ j, r.has j → P j := by
  simp [has, or_imp, forall_and, and_assoc]

theorem mixed_congr (same : ∀ i, n.has i → (owner i).getD h = (owner' i).getD h') :
    n.mixed owner h = n.mixed owner' h' := by
  induction n with
  | leaf _ _ => rfl
  | pair i l r ihl ihr =>
    obtain ⟨here, left, right⟩ := forall_has_pair.1 same
    rw [mixed, mixed, here, ihl left, ihr right]

theorem mixed_none (h : Hasher) (n : Node) : n.mixed (fun _ => none) h = n.digest h := by
  induction n with
  | leaf _ _ => rfl
  | pair i l r ihl ihr =>
    rw [mixed, digest, ihl, ihr]
    rfl

/-- New owners change nothing where every pair has one. -/
theorem mixed_or_of_owned {new : Nat → Option Hasher} (all : ∀ i, n.has i → owner i ≠ none)
    (h h' : Hasher) : n.mixed (fun i => (owner i).or (new i)) h' = n.mixed owner h := by
  refine mixed_congr fun i hi => ?_
  obtain ⟨o, ho⟩ := Option.ne_none_iff_exists'.1 (all i hi)
  rw [ho]
  rfl

/-- A hasher that is the new owner of everything else stands in for those that have none. -/
theorem mixed_or_of_new {new : Nat → Option Hasher} (all : ∀ i, n.has i → new i = some h)
    (h' : Hasher) : n.mixed (fun i => (owner i).or (new i)) h' = n.mixed owner h := by
  refine mixed_congr fun i hi => ?_
  rw [all i hi]
  cases owner i <;> rfl

/-- With one hasher everywhere the root is that of the hasher. -/
theorem mixed_eq_digest (own : ∀ i, n.has i → ∀ h', owner i = some h' → h' = h) :
    n.mixed owner h = n.digest h := by
  refine (mixed_congr fun i hi => ?_).trans (mixed_none h n)
  cases hh : owner i with
  | none => rfl
  | some h' => exact own i hi h' hh

/-- What is met from a node has nothing in it that the node has not. -/
theorem Meets.within (met : Meets s n p) : ∀ j, p.has j → n.has j := by
  induction met with
  | here _ => exact fun _ => id
  | left _ _ ih => exact fun j hj => has_pair.2 (.inr (.inl (ih j hj)))
  | right _ _ ih => exact fun j hj => has_pair.2 (.inr (.inr (ih j hj)))

/-- What is true of a node and, with a pair, of its sides is true of what is passed on a path. -/
theorem forall_passed {P : Node → Prop} (sides : ∀ {i l r}, P (pair i l r) → P l ∧ P r) :
    ∀ {path : List Bool} {n : Node}, P n → ∀ m ∈ n.passed path, P m
  | [], n, _ => by cases n <;> exact nofun
  | _ :: _, .leaf _ _, _ => nofun
  | right :: path, .pair i l r, hn => by
    obtain ⟨hl, hr⟩ := sides hn
    have next : P (if right then r else l) := by split <;> assumption
    have beside : P (if right then l else r) := by split <;> assumption
    exact List.forall_mem_cons.2 ⟨beside, forall_passed sides next⟩

theorem Stored.passed (hn : n.Stored s) (path : List Bool) : ∀ m ∈ n.passed path, m.Stored s :=
  forall_passed (fun h => ⟨h.2.1, h.2.2⟩) hn

/-! ## Gathering a branch -/

theorem gathered_pair (root : Node → Root) (right : Bool) (path : List Bool) :
    (pair i l r).gathered h root (right :: path) =
      (if right then r else l).gathered h root path ++ [root (if right then l else r)] := by
  simp [gathered, passed]

theorem gathered_congr {root root' : Node → Root} {path : List Bool}
    (same : ∀ m ∈ n.passed path, root m = root' m) :
    n.gathered h root path = n.gathered h root' path := by
  rw [gathered, gathered, List.map_congr_left same]

/-- A branch is gathered by hashing what is passed. -/
theorem branch_hashes (h : Hasher) (target : Gindex) : ∀ {path : List Bool} {n : Node} {s : Store},
    n.Stored s → path.length ≤ 64 → ∃ t, (n.branch h target path).run.run s =
      ((match (Tree.ofNode n).seek h path with
        | .ok _ => .ok (n.gathered h (given h s) path)
        | .error left => .error (.navigation target.val left)), t) ∧
      s.Fills h (· ∈ n.passed path) t
  | [], n, s, _, _ => by
    refine ⟨s, ?_, .refl h ?_⟩
    · cases n <;> rfl
    · cases n <;> exact nofun
  | right :: path, .leaf i c, s, _, h64 => by
    rw [List.length_cons] at h64
    refine ⟨s, ?_, .refl h nofun⟩
    simp only [branch, Hasher.zero_eq h64, liftM_ok, pure_bind, Tree.ofNode, Tree.seek]
    by_cases hc : c = zeroRoot h.combine (path.length + 1)
    · rw [if_neg (not_not_intro hc), if_pos hc, zeroBranch_ok h64]
      simp [gathered, passed]
      rfl
    · rw [if_pos hc, if_neg hc]
      rfl
  | right :: path, .pair i l r, s, hn, h64 => by
    rw [List.length_cons] at h64
    have hbeside : (if right then l else r).Stored s := by split; exacts [hn.2.1, hn.2.2]
    have hnext : (if right then r else l).Stored s := by split; exacts [hn.2.2, hn.2.1]
    obtain ⟨t, hrun, st⟩ := root_hashes h _ s hbeside
    obtain ⟨u, hrun', tu⟩ := branch_hashes h target (st.stored hnext)
      (show path.length ≤ 64 by omega)
    have stored : ∀ m, m = (if right then l else r) → m.Stored s := forall_eq.2 hbeside
    refine ⟨u, ?_, (st.trans stored tu (hnext.passed path)).congr fun m => by simp [passed]⟩
    rw [branch, run_bind_ok (run_liftM hrun), Tree.seek_ofNode_pair, gathered_pair]
    cases hseek : (Tree.ofNode (if right then r else l)).seek h path with
    | error left =>
      rw [hseek] at hrun'
      exact run_bind_error hrun' _
    | ok _ =>
      rw [hseek, gathered_congr fun m hm => st.given_eq stored (hnext.passed path m hm)] at hrun'
      rw [run_bind_ok hrun']
      rfl

theorem prove_hashes (h : Hasher) (hn : n.Stored s) (g : Gindex) : ∃ t, (n.prove h g).run.run s =
      ((match (Tree.ofNode n).seek h g.path with
        | .ok _ => .ok ⟨n.gathered h (given h s) g.path, n.given h s⟩
        | .error left => .error (.navigation g.val left)), t) ∧
      s.Fills h (· ∈ match (Tree.ofNode n).seek h g.path with
        | .ok _ => n :: n.passed g.path
        | .error _ => n.passed g.path) t := by
  have h64 : g.path.length ≤ 64 := by rw [Gindex.length_path]; exact g.depth_lt.le
  have stored := hn.passed g.path
  obtain ⟨t, hrun, st⟩ := branch_hashes h g hn h64
  cases hseek : (Tree.ofNode n).seek h g.path with
  | error left =>
    rw [hseek] at hrun
    exact ⟨t, run_bind_error hrun _, st⟩
  | ok _ =>
    rw [hseek] at hrun
    -- the branch is hashed first, and the tree as it was before
    obtain ⟨u, hrun', tu⟩ := root_hashes h n t (st.stored hn)
    rw [st.given_eq stored hn] at hrun'
    refine ⟨u, ?_, (st.trans stored tu (forall_eq.2 hn)).congr fun m => by simp [or_comm]⟩
    rw [prove, run_bind_ok hrun, run_bind_ok (run_liftM hrun')]
    rfl

end Node

/-! ## Calls that hash -/

/-- A call that hashes a tree under a hasher of the caller's choice. -/
inductive HashCall where
  | root (h : Hasher) (n : Node)
  | rootInHalves (h : Hasher) (rightFirst : Nat → Bool) (levels : Nat) (n : Node)
  | prove (h : Hasher) (n : Node) (g : Gindex)
  | viewRoot (h : Hasher) (v : LevelView)
  /-- A list is hashed under the hasher it was opened with. -/
  | listRoot (l : MerkleList)

namespace HashCall

def hasher : HashCall → Hasher
  | root h _ => h
  | rootInHalves h _ _ _ => h
  | prove h _ _ => h
  | viewRoot h _ => h
  | listRoot l => l.hasher

def tree : HashCall → Node
  | root _ n => n
  | rootInHalves _ _ _ n => n
  | prove _ n _ => n
  | viewRoot _ v => v.backing
  | listRoot l => l.backing

/-- The roots that the call returns, that of the tree first and then the branch of a proof. -/
def work : HashCall → TreeM (List Root)
  | root h n => do
    let c ← n.root h
    return [c]
  | rootInHalves h rightFirst levels n => do
    let c ← n.rootInHalves h rightFirst levels
    return [c]
  | prove h n g => do
    let p ← n.prove h g
    return p.root :: p.branch
  | viewRoot h v => do
    let c ← v.root h
    return [c]
  | listRoot l => do
    let c ← l.root
    return [c]

/-- What the call returns where `root` says the roots of all nodes. -/
def answer (root : Node → Root) : HashCall → Result (List Root)
  | prove h n g => match (Tree.ofNode n).seek h g.path with
    | .ok _ => .ok (root n :: n.gathered h root g.path)
    | .error left => .error (.navigation g.val left)
  | c => .ok [root c.tree]

/-- The nodes that the call asks the roots of. A proof that is refused has come as far as it could. -/
def asked : HashCall → List Node
  | prove h n g => match (Tree.ofNode n).seek h g.path with
    | .ok _ => n :: n.passed g.path
    | .error _ => n.passed g.path
  | c => [c.tree]

/-- Whether the call hashes the pair of that number, unless it has its root already. -/
def covers (c : HashCall) (i : Nat) : Bool := c.asked.any (·.has i)

variable {c : HashCall}

/-- What is true of the tree and, with a pair, of its sides is true of all nodes that are asked for. -/
theorem forall_asked {P : Node → Prop} (sides : ∀ {i l r}, P (.pair i l r) → P l ∧ P r)
    (hc : P c.tree) : ∀ n ∈ c.asked, P n := by
  have own : ∀ n ∈ [c.tree], P n := List.forall_mem_singleton.2 hc
  cases c with
  | prove h n g =>
    have beside : ∀ m ∈ n.passed g.path, P m := Node.forall_passed sides hc
    rw [asked]
    split
    · exact List.forall_mem_cons.2 ⟨hc, beside⟩
    · exact beside
  | _ => exact own

theorem answer_congr {root root' : Node → Root} (same : ∀ n ∈ c.asked, root n = root' n) :
    c.answer root = c.answer root' := by
  cases c with
  | prove h n g =>
    rw [asked] at same
    rw [answer, answer]
    split
    · rename_i hseek
      simp only [hseek, List.forall_mem_cons] at same
      rw [same.1, Node.gathered_congr same.2]
    · rfl
  | _ => exact congrArg (fun c => Except.ok [c]) (same _ (List.mem_singleton_self _))

/-- Whichever roots there are, a call answers with what is given, and fills in what it asks for. -/
theorem hashes (hc : c.tree.Stored s) : ∃ t,
    c.work.run.run s = (c.answer (Node.given c.hasher s), t) ∧ s.Fills c.hasher (· ∈ c.asked) t := by
  have plain : ∀ {h : Hasher} {n : Node} {x : StateM Store Root}, Node.Hashes h n x → n.Stored s →
      ∃ t, (do let c ← x; return [c] : TreeM (List Root)).run.run s = (.ok [n.given h s], t) ∧
        s.Fills h (· ∈ [n]) t := by
    intro h n x hx hn
    obtain ⟨t, hrun, st⟩ := hx s hn
    exact ⟨t, run_bind_ok (run_liftM hrun) _, st.congr fun _ => List.mem_singleton.symm⟩
  cases c with
  | root h n => exact plain (Node.root_hashes h n) hc
  | rootInHalves h rightFirst levels n =>
    exact plain (Node.rootInHalves_hashes h rightFirst levels n) hc
  | viewRoot h v => exact plain (Node.root_hashes h v.backing) hc
  | listRoot l => exact plain (Node.root_hashes l.hasher l.backing) hc
  | prove h n g =>
    obtain ⟨t, hrun, st⟩ := Node.prove_hashes h (show n.Stored s from hc) g
    refine ⟨t, ?_, ?_⟩
    · rw [work, answer]
      split
      · rename_i hseek
        rw [hseek] at hrun
        exact run_bind_ok hrun _
      · rename_i left hseek
        rw [hseek] at hrun
        exact run_bind_error hrun _
    · rw [asked]
      exact st

theorem stored_after (hc : c.tree.Stored s) {n : Node} (hn : n.Stored s) :
    n.Stored (c.work.run.run s).2 := by
  obtain ⟨t, hrun, st⟩ := hashes hc
  rw [hrun]
  exact st.stored hn

/-- The hasher of the first call that covered the pair of a number. -/
def owner (calls : List HashCall) (i : Nat) : Option Hasher := (calls.find? (·.covers i)).map hasher

theorem exists_of_owner {calls : List HashCall} {i : Nat} {h : Hasher}
    (ho : owner calls i = some h) : ∃ c ∈ calls, c.covers i ∧ c.hasher = h := by
  obtain ⟨c, hc, rfl⟩ := Option.map_eq_some_iff.1 ho
  have covers := List.find?_some hc
  exact ⟨c, List.mem_of_find?_eq_some hc, covers, rfl⟩

theorem owner_append (calls : List HashCall) (c : HashCall) (i : Nat) :
    owner (calls ++ [c]) i = (owner calls i).or (if c.covers i then some c.hasher else none) := by
  rw [owner, owner, List.find?_append, List.find?_singleton]
  cases calls.find? (·.covers i) with
  | none => cases c.covers i <;> rfl
  | some _ => rfl

end HashCall

/-! ## Owners -/

open Node (Stored Meets)

/-- A pair has a root once it has an owner, and so has everything in it by then. The root is that of all
these owners. -/
structure Store.Owned (owner : Nat → Option Hasher) (s : Store) : Prop where
  free : ∀ {i}, owner i = none → s.roots[i]? = none
  owned : ∀ {i}, owner i ≠ none → ∃ l r, (Node.pair i l r).Stored s ∧
    (∀ j, (Node.pair i l r).has j → owner j ≠ none) ∧
    ∀ h, s.roots[i]? = some ((Node.pair i l r).mixed owner h)

namespace Store.Owned

variable {owner : Nat → Option Hasher} {i : Nat} {l r n : Node}

/-- There is only one pair that the number may be of. -/
theorem owned_pair (hs : s.Owned owner) (hp : (Node.pair i l r).Stored s) (hi : owner i ≠ none) :
    (∀ j, (Node.pair i l r).has j → owner j ≠ none) ∧
      ∀ h, s.roots[i]? = some ((Node.pair i l r).mixed owner h) := by
  obtain ⟨l', r', hp', all, kept⟩ := hs.owned hi
  rw [hp'.eq_of_number hp]
  exact ⟨all, kept⟩

theorem given_eq_mixed (hs : s.Owned owner) (h : Hasher) (hn : n.Stored s) :
    n.given h s = n.mixed owner h := by
  induction n with
  | leaf _ _ => rfl
  | pair i l r ihl ihr =>
    by_cases hi : owner i = none
    · rw [Node.given_of_none (hs.free hi), ihl hn.2.1, ihr hn.2.2, Node.mixed, hi]
      rfl
    · exact Node.given_of_kept ((hs.owned_pair hn hi).2 h)

/-- Hashing a tree that has a pair without an owner comes to that pair. -/
theorem meets_of_has (hs : s.Owned owner) (hn : n.Stored s) (hi : owner i = none) (has : n.has i) :
    ∃ l r, Meets s n (.pair i l r) := by
  induction n with
  | leaf _ _ => cases has
  | pair k a b iha ihb =>
    -- had the pair above an owner, so would this one
    have hk : owner k = none := by
      by_contra hk
      exact (hs.owned_pair hn hk).1 i has hi
    rcases Node.has_pair.1 has with rfl | ha | hb
    · exact ⟨a, b, .here (hs.free hk)⟩
    · obtain ⟨l, r, met⟩ := iha hn.2.1 ha
      exact ⟨l, r, .left (hs.free hk) met⟩
    · obtain ⟨l, r, met⟩ := ihb hn.2.2 hb
      exact ⟨l, r, .right (hs.free hk) met⟩

theorem builds (hs : s.Owned owner) (st : s.Builds t) : t.Owned owner := by
  constructor
  · intro i hi
    rw [st.roots]
    exact hs.free hi
  · intro i hi
    obtain ⟨l, r, hp, all, kept⟩ := hs.owned hi
    exact ⟨l, r, hp.mono st.made, all, by rwa [st.roots]⟩

/-- Whoever asks for some nodes becomes the owner of all that has none in them. -/
theorem fills (hs : s.Owned owner) {asked : List Node} (stored : ∀ n ∈ asked, n.Stored s)
    (st : s.Fills h (· ∈ asked) t) :
    t.Owned fun i => (owner i).or (if asked.any (·.has i) then some h else none) := by
  have new_of_has : ∀ {n i}, n ∈ asked → n.has i →
      (if asked.any (·.has i) then some h else Option.none) = some h :=
    fun hn hi => if_pos (List.any_eq_true.2 ⟨_, hn, hi⟩)
  constructor
  · -- a root would have been kept before, or filled in just now
    intro i hi
    obtain ⟨howner, hnew⟩ := Option.or_eq_none_iff.1 hi
    by_contra hc
    obtain ⟨c, hc⟩ := Option.ne_none_iff_exists'.1 hc
    rcases (st.roots i c).1 hc with hc | ⟨n, l, r, hn, met, -⟩
    · exact nomatch (hs.free howner).symm.trans hc
    · exact nomatch hnew.symm.trans (new_of_has hn (met.within i (Node.has_pair.2 (.inl rfl))))
  · intro i hi
    by_cases howner : owner i = none
    · obtain ⟨n, hn, has⟩ : ∃ n ∈ asked, n.has i := by
        by_contra no
        rw [howner, if_neg (by simpa using no)] at hi
        exact hi rfl
      obtain ⟨l, r, met⟩ := hs.meets_of_has (stored n hn) howner has
      have hp := met.stored (stored n hn)
      have new := fun j hj => new_of_has hn (met.within j hj)
      refine ⟨l, r, st.stored hp, fun j hj => ?_, fun h' => ?_⟩
      · rw [new j hj]
        cases owner j <;> exact nofun
      · refine (st.roots i _).2 (.inr ⟨n, l, r, hn, met, ?_⟩)
        rw [hs.given_eq_mixed h hp, Node.mixed_or_of_new new]
    · obtain ⟨l, r, hp, all, kept⟩ := hs.owned howner
      refine ⟨l, r, st.stored hp, fun j hj => by simp [all j hj], fun h' => ?_⟩
      rw [st.kept (kept h'), Node.mixed_or_of_owned all h' h']

end Store.Owned

/-! ## Runs -/

/-- Calls from the empty store on, with the store after them; between calls nodes are made in any way. -/
inductive HashRun : List HashCall → Store → Prop
  | start : HashRun [] .empty
  | build {calls s t} : HashRun calls s → s.Builds t → HashRun calls t
  | call {calls s} {c : HashCall} : HashRun calls s → c.tree.Stored s →
      HashRun (calls ++ [c]) (c.work.run.run s).2

namespace HashRun

variable {calls : List HashCall} {c : HashCall}

theorem owned (run : HashRun calls s) : s.Owned (HashCall.owner calls) := by
  induction run with
  | start =>
    constructor
    · intro i _
      simp [Store.empty]
    · exact fun hi => absurd rfl hi
  | build _ st ih => exact ih.builds st
  | @call calls s c _ hc ih =>
    obtain ⟨t, hrun, st⟩ := HashCall.hashes hc
    have stored := HashCall.forall_asked (P := Stored s) (fun h => h.2) hc
    rw [hrun, show HashCall.owner (calls ++ [c]) = _ from funext (HashCall.owner_append calls c)]
    exact ih.fills stored st

theorem answer_eq_mixed (run : HashRun calls s) (hc : c.tree.Stored s) :
    (c.work.run.run s).1 = c.answer (Node.mixed (HashCall.owner calls) c.hasher) := by
  obtain ⟨t, hrun, -⟩ := HashCall.hashes hc
  have stored := HashCall.forall_asked (P := Stored s) (fun h => h.2) hc
  rw [hrun]
  exact HashCall.answer_congr fun n hn => run.owned.given_eq_mixed c.hasher (stored n hn)

/-- In every run a call answers with roots in which each pair is combined by the hasher of the first
call that covered it, or by that of the call itself where there is none. They are those of its own
hasher if no call of another one was the first to cover a pair of the tree. -/
theorem answers_by_owners (run : HashRun calls s) (hc : c.tree.Stored s) :
    (c.work.run.run s).1 = c.answer (Node.mixed (HashCall.owner calls) c.hasher) ∧
      ((∀ i, c.tree.has i → ∀ h, HashCall.owner calls i = some h → h = c.hasher) →
        (c.work.run.run s).1 = c.answer (Node.digest c.hasher)) := by
  have mixed := run.answer_eq_mixed hc
  refine ⟨mixed, fun own => mixed.trans (HashCall.answer_congr fun n hn => ?_)⟩
  have within := HashCall.forall_asked (P := fun n => ∀ i, n.has i → c.tree.has i)
    (fun h => (Node.forall_has_pair.1 h).2) (fun _ => id)
  exact Node.mixed_eq_digest fun i hi => own i (within n hn i hi)

/-- The content of a list was hashed under one hasher before the list is opened with another. The first
hasher is answered as if it were alone, the list is not. -/
theorem answers_of_reopened_list :
    let leaf : Node := .leaf (.made 0) .zero
    let content : Node := .pair 1 leaf leaf
    let backing : Node := .pair 2 content leaf
    let first : HashCall := .root .sha256 content
    let s := (first.work.run.run ⟨#[leaf, content, backing], ∅⟩).2
    ∃ l, MerkleList.ofBacking .blake3 backing 2 = .ok l ∧ HashRun [first] s ∧
      ((HashCall.listRoot l).work.run.run s).1 =
        .ok [Hasher.blake3.combine (Hasher.sha256.combine .zero .zero) .zero] ∧
      (first.work.run.run s).1 = .ok [Hasher.sha256.combine .zero .zero] := by
  intro leaf content backing first s
  have built : HashRun [] ⟨#[leaf, content, backing], ∅⟩ :=
    start.build ⟨by simp [Store.empty], rfl⟩
  have run : HashRun [first] s := built.call ⟨rfl, trivial, trivial⟩
  have stored : backing.Stored ⟨#[leaf, content, backing], ∅⟩ :=
    ⟨rfl, ⟨rfl, trivial, trivial⟩, trivial⟩
  have stored := HashCall.stored_after (c := first) stored.2.1 stored
  let l : MerkleList := ⟨.blake3, ⟨backing, 2⟩, 2, 0⟩
  refine ⟨l, by rfl, run, ?_, ?_⟩
  · exact (run.answers_by_owners (c := .listRoot l) stored).1
  · refine (run.answers_by_owners (c := first) stored.2.1).2 fun i hi h ho => ?_
    obtain ⟨_, hc, -, rfl⟩ := HashCall.exists_of_owner ho
    rw [List.mem_singleton.1 hc]

/-- A pair that was hashed under one hasher answers another with the root it keeps. -/
theorem not_always_digest : ¬ ∀ (calls : List HashCall) (s : Store) (c : HashCall), HashRun calls s →
    c.tree.Stored s → (c.work.run.run s).1 = c.answer (Node.digest c.hasher) := by
  intro all
  let leaf (i : Nat) : Node := .leaf (.made i) .zero
  let n : Node := .pair 2 (leaf 0) (leaf 1)
  have built : HashRun [] ⟨#[leaf 0, leaf 1, n], ∅⟩ := start.build ⟨by simp [Store.empty], rfl⟩
  have stored : n.Stored ⟨#[leaf 0, leaf 1, n], ∅⟩ := ⟨rfl, trivial, trivial⟩
  have run := built.call (c := .root .sha256 n) stored
  have stored := HashCall.stored_after (c := .root .sha256 n) stored stored
  have answer := all _ _ (.root .blake3 n) run stored
  rw [run.answer_eq_mixed (c := .root .blake3 n) stored] at answer
  have differ : Hasher.sha256.combine .zero .zero ≠ Hasher.blake3.combine .zero .zero := by
    decide +kernel
  have same : n.mixed (HashCall.owner [.root .sha256 n]) .blake3 = n.digest .blake3 := by
    simpa [HashCall.answer, HashCall.tree, HashCall.hasher] using answer
  exact differ same

end HashRun

end SszMerkle
