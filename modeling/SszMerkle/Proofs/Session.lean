/-
Whole sessions under one hasher. One request leaves every node as it was made, every kept root what it
was, and every name with known nodes only; so does any run of requests, in any order and however the
names share nodes. From there on it follows for each node that it is hashed to its digest, whatever
was hashed before it and in whatever order.
-/
import SszMerkle.Proofs.Hashing
import SszMerkle.Session.Command

namespace SszMerkle

variable {h : Hasher} {s t : Store} {σ τ : Session}

/-! ## What names stand for -/

/-- What a name stands for is made of nodes of the store. -/
def Held.Known (h : Hasher) (s : Store) : Held → Prop
  | node n => n.Known h s
  | graft g => g.Known h s
  | list l => l.Known h s
  | view v => v.backing.Known h s

namespace Held

variable {x : Held}

theorem Known.later (hx : x.Known h s) (st : s.Later h t) : x.Known h t := by
  cases x with
  | node n => exact Node.Known.later hx st
  | graft g => exact Graft.Known.later hx st
  | list l => exact MerkleList.Known.later hx st
  | view v => exact Node.Known.later hx st

theorem Known.node? (hx : x.Known h s) {n : Node} (e : x.node? = some n) : n.Known h s := by
  cases x <;> cases e
  exact hx

theorem Known.graft? (hx : x.Known h s) {g : Graft} (e : x.graft? = some g) : g.Known h s := by
  cases x <;> cases e
  exact hx

theorem Known.list? (hx : x.Known h s) {l : MerkleList} (e : x.list? = some l) : l.Known h s := by
  cases x <;> cases e
  exact hx

theorem Known.view? (hx : x.Known h s) {v : LevelView} (e : x.view? = some v) :
    v.backing.Known h s := by
  cases x <;> cases e
  exact hx

theorem Known.backing? (hx : x.Known h s) {n : Node} (e : x.backing? = some n) : n.Known h s := by
  cases x <;> cases e
  · exact hx.2
  · exact hx

end Held

/-! ## Steps of a session -/

namespace Session

/-- A sound store, and names of nothing but its nodes. -/
structure Sound (h : Hasher) (σ : Session) : Prop where
  store : σ.store.Sound h
  held : ∀ {name : String} {x}, σ.held[name]? = some x → x.Known h σ.store

theorem sound_empty (h : Hasher) : empty.Sound h := by
  refine ⟨Store.sound_empty h, fun {name x} e => ?_⟩
  simp [empty] at e

/-- The regime of sessions under one hasher. -/
def regime (h : Hasher) : Regime Session where
  Holds := Sound h
  Grows σ τ := σ.store.Later h τ.store
  refl σ := .refl h σ.store
  trans := Store.Later.trans

theorem run_onStore {α : Type} (x : TreeM α) (σ : Session) : (onStore x).run.run σ =
    ((x.run.run σ.store).1, { σ with store := (x.run.run σ.store).2 }) := rfl

theorem onStore_keeps {α : Type} {x : TreeM α} {P : α → Store → Prop}
    (hx : (Store.regime h).Keeps σ.store x P) :
    (regime h).Keeps σ (onStore x) fun a τ => P a τ.store := by
  intro hσ
  obtain ⟨r, t, hrun, st, ht, ha⟩ := hx hσ.store
  refine ⟨r, { σ with store := t }, ?_, st, ⟨ht, fun e => (hσ.held e).later st⟩, ha⟩
  rw [run_onStore, hrun]

theorem put_keeps {x : Held} (hx : x.Known h σ.store) (name : String) :
    (regime h).Keeps σ (put name x) fun _ _ => True := by
  intro hσ
  refine ⟨.ok (), { σ with held := σ.held.insert name x }, rfl, .refl h σ.store,
    ⟨hσ.store, fun {name' y} e => ?_⟩, fun _ _ => trivial⟩
  rw [Std.HashMap.getElem?_insert] at e
  split at e
  · cases e
    exact hx
  · exact hσ.held e

theorem put?_keeps {x : Held} (hx : x.Known h σ.store) : ∀ name : Option String,
    (regime h).Keeps σ (put? name x) fun _ _ => True
  | some name => put_keeps hx name
  | none => .pure trivial

theorem get_keeps (σ : Session) : (regime h).Keeps σ (getThe Session) fun a τ => a = τ :=
  fun hσ => ⟨.ok σ, σ, rfl, .refl h σ.store, hσ, by rintro _ ⟨⟩; rfl⟩

/-- What is found is known in the way that `select` makes of known things. -/
theorem find_keeps {α : Type} {select : Held → Option α} {K : Store → α → Prop}
    (hk : ∀ {x : Held} {s : Store}, x.Known h s → ∀ {a}, select x = some a → K s a) (name : String) :
    (regime h).Keeps σ (find select name) fun a τ => K τ.store a := by
  intro hσ
  refine Regime.Keeps.bind (get_keeps σ) ?_ hσ
  rintro τ _ _ rfl hτ
  cases hx : (τ.held[name]? >>= select) with
  | none => exact Regime.Keeps.throw _ hτ
  | some a =>
    obtain ⟨x, hheld, hselect⟩ := Option.bind_eq_some_iff.1 hx
    exact Regime.Keeps.pure (hk (hτ.held hheld) hselect) hτ

theorem show?_keeps {n : Node} (hn : n.Known h σ.store) (as : Option String) :
    (regime h).Keeps σ (show? as n) fun _ _ => True :=
  (put?_keeps (x := .node n) hn as).bind fun _ τ _ _ => (get_keeps τ).reply _

theorem graft_keeps : ∀ name : GraftName,
    (regime h).Keeps σ (graft name) fun g τ => g.Known h τ.store
  | .identity => .pure trivial
  | .held name => find_keeps Held.Known.graft? name

end Session

/-! ## Requests under one hasher -/

mutual

/-- Every hasher of the expression is the given one. -/
def NodeExpr.Uses (h : Hasher) : NodeExpr → Prop
  | held _ => True
  | leaf _ => True
  | pair l r => l.Uses h ∧ r.Uses h
  | zero h' _ => h' = h
  | replicate bottom _ => bottom.Uses h
  | replicatePad h' bottom _ _ => h' = h ∧ bottom.Uses h
  | ofList h' nodes _ => h' = h ∧ AllUse h nodes
  | get tree _ => tree.Uses h
  | backing _ => True

def NodeExpr.AllUse (h : Hasher) : List NodeExpr → Prop
  | [] => True
  | e :: es => e.Uses h ∧ AllUse h es

end

open Session in
mutual

theorem NodeExpr.eval_keeps : ∀ {e : NodeExpr} {σ : Session}, e.Uses h →
    (regime h).Keeps σ e.eval fun n τ => n.Known h τ.store
  | .held name, _, _ => by
    rw [eval]
    exact find_keeps Held.Known.node? name
  | .leaf c, _, _ => by
    rw [eval]
    exact onStore_keeps (Node.newLeaf_keeps c)
  | .pair l r, _, ⟨hl, hr⟩ => by
    rw [eval]
    refine (eval_keeps hl).bind fun l τ _ hl => ?_
    refine (eval_keeps hr).bind fun r υ τυ hr => ?_
    exact onStore_keeps (Node.newPair_keeps (hl.later τυ) hr)
  | .zero _ d, _, rfl => by
    rw [eval]
    exact onStore_keeps (Node.zeroLeaf_keeps d)
  | .replicate bottom d, _, hb => by
    rw [eval]
    refine (eval_keeps (e := bottom) hb).bind fun bottom τ _ hb => ?_
    exact onStore_keeps (Node.replicate_keeps hb)
  | .replicatePad _ bottom d length, _, ⟨rfl, hb⟩ => by
    rw [eval]
    refine (eval_keeps hb).bind fun bottom τ _ hb => ?_
    exact onStore_keeps (Node.replicatePad_keeps hb)
  | .ofList _ nodes d, _, ⟨rfl, hn⟩ => by
    rw [eval]
    refine (evalAll_keeps hn).bind fun nodes τ _ hn => ?_
    exact onStore_keeps (Node.ofList_keeps hn)
  | .get tree place, _, ht => by
    rw [eval]
    refine (eval_keeps (e := tree) ht).bind fun tree τ _ ht => ?_
    refine .bind (.result _) fun g υ τυ _ => ?_
    exact .lift fun _ => Node.follow_known (ht.later τυ)
  | .backing name, _, _ => by
    rw [eval]
    exact find_keeps Held.Known.backing? name

theorem NodeExpr.evalAll_keeps : ∀ {es : List NodeExpr} {σ : Session}, AllUse h es →
    (regime h).Keeps σ (evalAll es) fun ns τ => ∀ n ∈ ns, n.Known h τ.store
  | [], _, _ => by
    rw [evalAll]
    exact .pure nofun
  | e :: es, _, ⟨he, hes⟩ => by
    rw [evalAll]
    refine (eval_keeps he).bind fun n τ _ hn => ?_
    refine (evalAll_keeps hes).bind fun ns υ τυ hns => ?_
    exact .pure (List.forall_mem_cons.2 ⟨hn.later τυ, hns⟩)

end

/-- Every hasher of the command is the given one, and the leaves to be appended are roots of values
that hold nodes of the store. -/
def Command.Uses (h : Hasher) (s : Store) : Command → Prop
  | define node _ => node.Uses h
  | get tree _ _ => tree.Uses h
  | root tree h' => tree.Uses h ∧ h' = h
  | rootInHalves tree h' _ => tree.Uses h ∧ h' = h
  | sketch tree _ => tree.Uses h
  | same a b => a.Uses h ∧ b.Uses h
  | prove tree h' _ => tree.Uses h ∧ h' = h
  | graftAt tree _ _ => tree.Uses h
  | graftInto tree h' _ _ => tree.Uses h ∧ h' = h
  | comp _ _ _ => True
  | apply _ node _ => node.Uses h
  | copy _ _ => True
  | newList h' _ _ => h' = h
  | openList backing h' _ _ => backing.Uses h ∧ h' = h
  | append _ node => node.Uses h
  | appendLeaves _ _ chunk => ∀ n, ∃ v : Value, v.Known h s ∧ chunk n = v.root h
  | pop _ _ => True
  | listGet _ _ _ => True
  | listSet _ _ node => node.Uses h
  | newView backing _ _ => backing.Uses h
  | viewGet _ _ _ => True
  | viewSet _ _ node => node.Uses h
  | viewRead _ _ => True
  | viewRoot _ h' => h' = h

namespace Session

open NodeExpr (eval_keeps)

theorem appendLeaves_keeps {name : String} {chunk : Nat → TreeM Root} : ∀ {n : Nat} {σ : Session},
    (∀ i, ∃ v : Value, v.Known h σ.store ∧ chunk i = v.root h) →
      (regime h).Keeps σ (appendLeaves name chunk n) fun _ _ => True
  | 0, _, _ => .pure trivial
  | n + 1, σ, hc => by
    rw [appendLeaves]
    refine (find_keeps Held.Known.list? name).bind fun l τ στ hl => ?_
    obtain ⟨v, hv, hchunk⟩ := hc l.length
    rw [hchunk]
    refine (onStore_keeps (Value.root_keeps (hv.later στ))).bind fun c υ τυ _ => ?_
    refine (onStore_keeps (Node.newLeaf_keeps c)).bind fun leaf φ υφ hleaf => ?_
    have hl := (hl.later τυ).later υφ
    refine (onStore_keeps (MerkleList.append_keeps hl hleaf)).bind fun l χ φχ hl => ?_
    refine (put_keeps (x := .list l) hl name).bind fun _ ψ χψ _ => ?_
    refine appendLeaves_keeps fun i => ?_
    obtain ⟨v, hv, hchunk⟩ := hc i
    exact ⟨v, hv.later (στ.trans (τυ.trans (υφ.trans (φχ.trans χψ)))), hchunk⟩

/-- Each command keeps the session sound, whether it succeeds or fails. -/
theorem run_keeps {c : Command} (hc : c.Uses h σ.store) :
    (regime h).Keeps σ (run c) fun _ _ => True := by
  cases c with
  | define node as =>
    exact (eval_keeps (e := node) hc).bind fun n _ _ hn => show?_keeps hn as
  | get tree place as =>
    refine (eval_keeps (e := tree) hc).bind fun tree τ _ ht => ?_
    refine .bind (.result _) fun g υ τυ _ => ?_
    refine (onStore_keeps (Node.get_keeps (ht.later τυ) g)).bind fun n _ _ hn => ?_
    exact show?_keeps hn as
  | root tree h' =>
    obtain ⟨ht, rfl⟩ := hc
    refine (eval_keeps ht).bind fun tree τ _ ht => ?_
    exact (onStore_keeps (Node.root_keeps ht)).reply _
  | rootInHalves tree h' levels =>
    obtain ⟨ht, rfl⟩ := hc
    refine (eval_keeps ht).bind fun tree τ _ ht => ?_
    exact (onStore_keeps (Node.rootInHalves_keeps ht)).reply _
  | sketch tree levels =>
    refine (eval_keeps (e := tree) hc).bind fun tree τ _ _ => ?_
    exact (get_keeps τ).reply _
  | same a b =>
    refine (eval_keeps hc.1).bind fun _ _ _ _ => ?_
    exact (eval_keeps hc.2).reply _
  | prove tree h' place =>
    obtain ⟨ht, rfl⟩ := hc
    refine .bind (.result _) fun g _ _ _ => ?_
    refine (eval_keeps ht).bind fun tree τ _ ht => ?_
    exact (onStore_keeps (Node.prove_keeps ht g)).reply _
  | graftAt tree place as =>
    refine (eval_keeps (e := tree) hc).bind fun tree τ _ ht => ?_
    refine .bind (.result _) fun g υ τυ _ => ?_
    refine (onStore_keeps (Node.graftAt_keeps (ht.later τυ) g)).bind fun graft φ _ hgraft => ?_
    exact (put?_keeps (x := .graft graft) hgraft as).reply _
  | graftInto tree h' place as =>
    obtain ⟨ht, rfl⟩ := hc
    refine (eval_keeps ht).bind fun tree τ _ ht => ?_
    refine .bind (.result _) fun g υ τυ _ => ?_
    refine (onStore_keeps (Node.graftInto_keeps (ht.later τυ) g)).bind fun graft φ _ hgraft => ?_
    exact (put?_keeps (x := .graft graft) hgraft as).reply _
  | comp inner outer as =>
    refine (graft_keeps inner).bind fun inner τ _ hi => ?_
    refine (graft_keeps outer).bind fun outer υ τυ ho => ?_
    refine (put?_keeps (x := .graft (.comp inner outer)) ?_ as).reply _
    exact .comp (hi.later τυ) ho
  | apply name node as =>
    refine (eval_keeps (e := node) hc).bind fun n τ _ hn => ?_
    refine (graft_keeps name).bind fun g υ τυ hg => ?_
    refine (onStore_keeps (Graft.apply_keeps hg (hn.later τυ))).bind fun m _ _ hm => ?_
    exact show?_keeps hm as
  | copy name as =>
    have same : ∀ {x : Held} {s : Store}, x.Known h s → ∀ {y}, some x = some y → y.Known h s := by
      rintro x s hx _ ⟨⟩
      exact hx
    refine (find_keeps same name).bind fun x τ _ hx => ?_
    exact (put?_keeps hx as).reply _
  | newList h' limit as =>
    obtain rfl := hc
    refine (onStore_keeps (MerkleList.empty_keeps limit)).bind fun l τ _ hl => ?_
    exact (put?_keeps (x := .list l) hl as).reply _
  | openList backing h' limit as =>
    obtain ⟨hb, rfl⟩ := hc
    refine (eval_keeps hb).bind fun backing τ _ hb => ?_
    refine (onStore_keeps (MerkleList.ofBacking_keeps hb limit)).bind fun l υ _ hl => ?_
    exact (put?_keeps (x := .list l) hl as).reply _
  | append name node =>
    refine (eval_keeps (e := node) hc).bind fun n τ _ hn => ?_
    refine (find_keeps Held.Known.list? name).bind fun l υ τυ hl => ?_
    refine (onStore_keeps (MerkleList.append_keeps hl (hn.later τυ))).bind fun l φ _ hl => ?_
    exact (put_keeps (x := .list l) hl name).reply _
  | appendLeaves name n chunk =>
    exact (appendLeaves_keeps hc).reply _
  | pop name as =>
    refine (find_keeps Held.Known.list? name).bind fun l τ _ hl => ?_
    refine (onStore_keeps (MerkleList.pop_keeps hl)).bind fun (n, l) υ _ ⟨hn, hl⟩ => ?_
    refine (put_keeps (x := .list l) hl name).bind fun _ φ υφ _ => ?_
    exact show?_keeps (hn.later υφ) as
  | listGet name i as =>
    refine (find_keeps Held.Known.list? name).bind fun l τ _ hl => ?_
    refine (onStore_keeps (MerkleList.get_keeps hl i)).bind fun n _ _ hn => ?_
    exact show?_keeps hn as
  | listSet name i node =>
    refine (eval_keeps (e := node) hc).bind fun n τ _ hn => ?_
    refine (find_keeps Held.Known.list? name).bind fun l υ τυ hl => ?_
    refine (onStore_keeps (MerkleList.set_keeps hl i (hn.later τυ))).bind fun l φ _ hl => ?_
    exact (put_keeps (x := .list l) hl name).reply _
  | newView backing depth as =>
    refine (eval_keeps (e := backing) hc).bind fun backing τ _ hb => ?_
    exact (put?_keeps (x := .view ⟨backing, depth⟩) hb as).reply _
  | viewGet name i as =>
    refine (find_keeps Held.Known.view? name).bind fun v τ _ hv => ?_
    refine (onStore_keeps (LevelView.get_keeps hv i)).bind fun n _ _ hn => ?_
    exact show?_keeps hn as
  | viewSet name i node =>
    refine (eval_keeps (e := node) hc).bind fun n τ _ hn => ?_
    refine (find_keeps Held.Known.view? name).bind fun v υ τυ hv => ?_
    refine (onStore_keeps (LevelView.set_keeps hv i (hn.later τυ))).bind fun v φ _ hv => ?_
    exact (put_keeps (x := .view v) hv name).reply _
  | viewRead name size =>
    refine (find_keeps Held.Known.view? name).bind fun v τ _ _ => ?_
    exact .reply (.result _) _
  | viewRoot name h' =>
    obtain rfl := hc
    refine (find_keeps Held.Known.view? name).bind fun v τ _ hv => ?_
    exact (onStore_keeps (Node.root_keeps hv)).reply _

theorem listStatus_keeps (name : String) (σ : Session) :
    (regime h).Keeps σ (listStatus name) fun _ _ => True := by
  intro hσ
  refine Regime.Keeps.bind (get_keeps σ) ?_ hσ
  rintro τ _ _ rfl hτ
  split
  · rename_i l hl
    obtain ⟨rfl, hb⟩ := hτ.held hl
    exact (onStore_keeps (Node.root_keeps hb)).reply _ hτ
  · exact Regime.Keeps.pure trivial hτ

end Session

/-! ## Runs -/

/-- A request to a session: a command, a look at a list, the root of a tree hashed in halves,
whichever half of a pair comes first, or the root or a proof of a value that may hold nodes. -/
inductive Request where
  | command (c : Command)
  | listStatus (name : String)
  | rootInHalves (tree : NodeExpr) (h : Hasher) (rightFirst : Nat → Bool) (levels : Nat)
  | valueRoot (v : Value) (h : Hasher)
  | valueProof (v : Value) (h : Hasher) (g : Gindex)

namespace Request

/-- The request uses the one hasher, and the values in it hold nodes of the store. -/
def Uses (h : Hasher) (s : Store) : Request → Prop
  | command c => c.Uses h s
  | listStatus _ => True
  | rootInHalves tree h' _ _ => tree.Uses h ∧ h' = h
  | valueRoot v h' => v.Known h s ∧ h' = h
  | valueProof v h' _ => v.Known h s ∧ h' = h

/-- What the request does to the session. -/
def work : Request → SessionM Unit
  | command c => do
    let _ ← Session.run c
  | listStatus name => do
    let _ ← Session.listStatus name
  | rootInHalves tree h rightFirst levels => do
    let tree ← tree.eval
    let _ ← tree.rootInHalves h rightFirst levels
  | valueRoot v h => do
    let _ ← v.root h
  | valueProof v h g => do
    let _ ← v.prove h g

end Request

namespace Session

/-- One session comes of another by requests that use one hasher, each of them granted or refused. -/
inductive Reaches (h : Hasher) (σ : Session) : Session → Prop
  | refl : Reaches h σ σ
  | request {υ : Session} (earlier : Reaches h σ υ) {req : Request} (uses : req.Uses h υ.store) :
      Reaches h σ (req.work.run.run υ).2

theorem work_keeps {req : Request} (uses : req.Uses h σ.store) :
    (regime h).Keeps σ req.work fun _ _ => True := by
  cases req with
  | command c => exact (run_keeps uses).reply _
  | listStatus name => exact (listStatus_keeps name σ).reply _
  | rootInHalves tree h' rightFirst levels =>
    obtain ⟨ht, rfl⟩ := uses
    refine (NodeExpr.eval_keeps ht).bind fun tree τ _ ht => ?_
    exact (onStore_keeps (Node.rootInHalves_keeps ht)).reply _
  | valueRoot v h' =>
    obtain ⟨hv, rfl⟩ := uses
    exact (onStore_keeps (Value.root_keeps hv)).reply _
  | valueProof v h' g =>
    obtain ⟨hv, rfl⟩ := uses
    exact (onStore_keeps (Value.prove_keeps hv g)).reply _

theorem Reaches.keeps (run : Reaches h σ τ) (hσ : σ.Sound h) :
    σ.store.Later h τ.store ∧ τ.Sound h := by
  induction run with
  | refl => exact ⟨.refl h σ.store, hσ⟩
  | request _ uses ih =>
    obtain ⟨later, hυ⟩ := ih
    obtain ⟨r, τ, hrun, later', hτ, -⟩ := work_keeps uses hυ
    rw [hrun]
    exact ⟨later.trans later', hτ⟩

/-- In every session that requests under one hasher lead to, the made nodes have their numbers and
are over known nodes, and so is everything a name stands for. However the run goes on, a known node
stays as it was made, and is the only one with its identity; the root kept for it stays; whatever root
is kept for it is its digest; and its digest is what hashing it gives, in halves or not. -/
theorem Reaches.nodes_keep (started : Reaches h .empty σ) (later : Reaches h σ τ) :
    (∀ (i : Nat) n, σ.store.made[i]? = some n → n.ident = .made i ∧ n.Known h σ.store) ∧
    (∀ (name : String) x, σ.held[name]? = some x → x.Known h σ.store) ∧
    ∀ n : Node, n.Known h σ.store →
      n.Known h τ.store ∧ (∀ m : Node, m.Known h τ.store → m.same n → m = n) ∧
      (∀ c, σ.store.cached n = some c → τ.store.cached n = some c) ∧
      (∀ c, τ.store.cached n = some c → c = n.digest h) ∧
      ((n.root h).run τ.store).1 = n.digest h ∧
      ∀ rightFirst levels, ((n.rootInHalves h rightFirst levels).run τ.store).1 = n.digest h := by
  obtain ⟨-, hσ⟩ := started.keeps (sound_empty h)
  obtain ⟨grown, hτ⟩ := later.keeps hσ
  refine ⟨fun i n e => hσ.store.made e, fun name x e => hσ.held e, fun n hn => ?_⟩
  have hn' := hn.later grown
  refine ⟨hn', ?_, ?_, ?_, ?_, ?_⟩
  · exact fun m hm e => hm.eq_of_ident hn' (eq_of_beq e)
  · exact fun c hc => grown.cached hc
  · exact fun c hc => hτ.store.cached_eq hn' hc
  · exact (Node.root_keeps hn').run_eq hτ.store
  · exact fun rightFirst levels => (Node.rootInHalves_keeps hn').run_eq hτ.store

/-- A pair that is the same leaf twice is made and hashed, and then both elements of a list. -/
theorem nodes_keep_of_shared_leaf : ∃ (n : Node) (σ τ : Session) (c : Root),
    Reaches .sha256 .empty σ ∧ Reaches .sha256 σ τ ∧ n.Known .sha256 σ.store ∧
      σ.store.cached n = some c ∧ τ.store.cached n = some c ∧ n.digest .sha256 = c ∧
      ((n.root .sha256).run τ.store).1 = c := by
  let leaf : Node := .leaf (.made 0) .zero
  let n : Node := .pair 1 leaf leaf
  let made : Session := ⟨⟨#[leaf, n], ∅⟩, ∅⟩
  have define : Request.Uses .sha256 Session.empty.store
      (.command (.define (.replicate (.leaf .zero) 1) none)) := trivial
  have making : Reaches .sha256 .empty made := (Reaches.refl.request define :)
  have hn : n.Known .sha256 made.store := ⟨rfl, rfl, rfl⟩
  have root : Request.Uses .sha256 made.store (.valueRoot (.node n) .sha256) :=
    ⟨by simpa [Value.Known, Value.nodes] using hn, rfl⟩
  let hashed : Session := ((Request.valueRoot (.node n) .sha256).work.run.run made).2
  have hashing : Reaches .sha256 .empty hashed := (making.request root :)
  have step : Reaches .sha256 made hashed := (Reaches.refl.request root :)
  have hn : n.Known .sha256 hashed.store :=
    hn.later (step.keeps (making.keeps (sound_empty _)).2).1
  have list : Request.Uses .sha256 hashed.store (.valueRoot (.list 2 [.node n, .node n]) .sha256) :=
    ⟨by simpa [Value.Known, Value.nodes, Value.nodesOf] using hn, rfl⟩
  have listing := Reaches.refl.request list
  obtain ⟨-, -, keep⟩ := hashing.nodes_keep listing
  obtain ⟨-, -, hkept, hdigest, hroot, -⟩ := keep n hn
  have hcached := Node.cached_root (h := .sha256) 1 leaf leaf made.store
  have hkept := hkept _ hcached
  refine ⟨n, _, _, _, hashing, listing, hn, hcached, hkept, ?_, ?_⟩
  · exact (hdigest _ hkept).symm
  · exact hroot.trans (hdigest _ hkept).symm

end Session

end SszMerkle
