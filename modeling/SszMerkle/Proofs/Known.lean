/-
What stays true of a store while a program works on it under one hasher: every node that was made is
there under its own number, over nodes that are there as well, and every kept root is the digest of
the node it is kept for. Each piece of work keeps this, whether it succeeds or fails, and what it
answers is again made of nodes of the store.
-/
import SszMerkle.MerkleList
import SszMerkle.Node.Balanced
import SszMerkle.Proofs.Regime
import SszMerkle.Proofs.Store

namespace SszMerkle

variable {h : Hasher} {s t : Store}

/-! ## Sound stores -/

/-- A tree is made of nodes of the store: each made node is there under its number with what the tree
has for it, and the others are the stand-ins of the hasher. -/
def Node.Known (h : Hasher) (s : Store) : Node → Prop
  | .leaf (.zero name d) c => name = h.name ∧ h.zero d = .ok c
  | .leaf (.made i) c => s.made[i]? = some (.leaf (.made i) c)
  | .pair i l r => s.made[i]? = some (.pair i l r) ∧ l.Known h s ∧ r.Known h s

/-- Every made node is known and has its own number, and every kept root is the digest of its node. -/
structure Store.Sound (h : Hasher) (s : Store) : Prop where
  made : ∀ {i : Nat} {n}, s.made[i]? = some n → n.ident = .made i ∧ n.Known h s
  kept : ∀ {i : Nat} {c}, s.roots[i]? = some c → ∃ n, s.made[i]? = some n ∧ c = n.digest h

theorem Node.Known.later {n : Node} (hn : n.Known h s) (st : s.Later h t) : n.Known h t := by
  induction n with
  | leaf i c =>
    cases i with
    | zero name d => exact hn
    | made i => exact st.made hn
  | pair i l r ihl ihr =>
    obtain ⟨hm, hl, hr⟩ := hn
    exact ⟨st.made hm, ihl hl, ihr hr⟩

/-- Two known nodes with one identity are one. -/
theorem Node.Known.eq_of_ident {m n : Node} (hm : m.Known h s) (hn : n.Known h s)
    (e : m.ident = n.ident) : m = n := by
  have made : ∀ {i : Nat} {n : Node}, n.Known h s → n.ident = .made i → s.made[i]? = some n := by
    rintro i (⟨_ | _, c⟩ | ⟨_, l, r⟩) hn e <;> cases e
    · exact hn
    · exact hn.1
  cases hi : n.ident with
  | made i =>
    have hm' := made hm (e.trans hi)
    rw [made hn hi, Option.some.injEq] at hm'
    exact hm'.symm
  | zero name d =>
    -- only leaves have such an identity, and the depth says what they hold
    rcases n with ⟨_ | _, c⟩ | ⟨_, _, _⟩ <;> cases hi
    rcases m with ⟨_ | _, c'⟩ | ⟨_, _, _⟩ <;> cases e
    have hc := hm.2.symm.trans hn.2
    cases hc
    rfl

namespace Store

theorem sound_empty (h : Hasher) : empty.Sound h := by
  constructor
  · intro i n e
    simp [empty] at e
  · intro i c e
    simp [empty] at e

/-- A later store in which no node was made. -/
theorem Sound.later (hs : s.Sound h) (st : s.Later h t) (hmade : t.made = s.made) : t.Sound h := by
  constructor
  · intro i n e
    rw [hmade] at e
    obtain ⟨hi, hn⟩ := hs.made e
    exact ⟨hi, hn.later st⟩
  · intro i c e
    rcases st.fresh e with e | new
    · obtain ⟨n, hn, hc⟩ := hs.kept e
      exact ⟨n, st.made hn, hc⟩
    · exact new

theorem Sound.push (hs : s.Sound h) {n : Node} (hi : n.ident = .made s.made.size)
    (hn : n.Known h { s with made := s.made.push n }) :
    Sound h { s with made := s.made.push n } := by
  have later := s.later_push h n
  constructor
  · intro i m e
    rw [Array.getElem?_push] at e
    split at e
    · rename_i hlast
      cases e
      exact ⟨hlast ▸ hi, hn⟩
    · obtain ⟨hj, hm⟩ := hs.made e
      exact ⟨hj, hm.later later⟩
  · intro i c e
    obtain ⟨m, hm, hc⟩ := hs.kept e
    exact ⟨m, later.made hm, hc⟩

theorem Sound.kept_eq (hs : s.Sound h) {i : Nat} {n : Node} {c : Root} (hn : s.made[i]? = some n)
    (hc : s.roots[i]? = some c) : c = n.digest h := by
  obtain ⟨m, hm, rfl⟩ := hs.kept hc
  rw [hn, Option.some.injEq] at hm
  rw [hm]

theorem Sound.cached_eq (hs : s.Sound h) {n : Node} {c : Root} (hn : n.Known h s)
    (hc : s.cached n = some c) : c = n.digest h := by
  cases n with
  | leaf i c => cases hc
  | pair i l r => exact hs.kept_eq hn.1 hc

theorem Later.cached (st : s.Later h t) {n : Node} {c : Root} (hc : s.cached n = some c) :
    t.cached n = some c := by
  cases n with
  | leaf i c => cases hc
  | pair i l r => exact st.kept hc

/-- The regime of work on trees under one hasher. -/
def regime (h : Hasher) : Regime Store where
  Holds := Sound h
  Grows := Later h
  refl := Later.refl h
  trans := Later.trans

theorem kept_keeps (i : Nat) : (regime h).Keeps s (liftM (kept i)) fun c t =>
    ∀ {c' n}, c = some c' → t.made[i]? = some n → c' = n.digest h :=
  .of_gives fun hs => ⟨_, s, rfl, .refl h s, hs, fun hc hn => hs.kept_eq hn hc⟩

theorem keep_keeps {i : Nat} {n : Node} (hn : s.made[i]? = some n) :
    (regime h).Keeps s (liftM (keep i (n.digest h))) fun c _ => c = n.digest h := by
  refine .of_gives fun hs => ?_
  have own : ∀ c, s.roots[i]? = some c → c = n.digest h := fun _ hc => hs.kept_eq hn hc
  have st := later_keep hn own
  exact ⟨_, _, rfl, st, hs.later st (made_keep ..), digest_of_keep own⟩

end Store

/-! ## Making nodes -/

namespace Node

theorem newLeaf_keeps (c : Root) :
    (Store.regime h).Keeps s (liftM (newLeaf c)) fun n t => n.Known h t :=
  .of_gives fun hs => ⟨_, _, rfl, s.later_push h _, hs.push rfl Array.getElem?_push_size,
    Array.getElem?_push_size⟩

theorem newPair_keeps {l r : Node} (hl : l.Known h s) (hr : r.Known h s) :
    (Store.regime h).Keeps s (liftM (newPair l r)) fun n t => n.Known h t := by
  have later := s.later_push h (.pair s.made.size l r)
  have known : (pair s.made.size l r).Known h { s with made := s.made.push (.pair s.made.size l r) } :=
    ⟨Array.getElem?_push_size, hl.later later, hr.later later⟩
  exact .of_gives fun hs => ⟨_, _, rfl, later, hs.push rfl known, known⟩

theorem zeroLeaf_known {d : Nat} {n : Node} (e : h.zeroLeaf d = .ok n) : n.Known h s := by
  obtain ⟨c, hc, e⟩ := bind_eq_ok e
  cases e
  exact ⟨rfl, hc⟩

theorem zeroLeaf_keeps (d : Nat) :
    (Store.regime h).Keeps s (liftM (h.zeroLeaf d)) fun n t => n.Known h t :=
  .lift fun _ e => zeroLeaf_known e

theorem replicate_keeps {bottom : Node} : ∀ {d : Nat} {s : Store}, bottom.Known h s →
    (Store.regime h).Keeps s (liftM (replicate bottom d)) fun n t => n.Known h t
  | 0, _, hb => .pure hb
  | d + 1, s, hb => by
    rw [replicate, liftM_bind]
    exact (replicate_keeps hb).bind fun below t _ hn => newPair_keeps hn hn

theorem replicatePad_keeps {bottom : Node} : ∀ {d length : Nat} {s : Store}, bottom.Known h s →
    (Store.regime h).Keeps s (replicatePad h bottom d length) fun n t => n.Known h t
  | d, length, s, hb => by
    rw [replicatePad.eq_def]
    refine .bind (.result _) fun _ t st _ => ?_
    have hb := hb.later st
    split
    · exact replicate_keeps hb
    split
    · exact zeroLeaf_keeps d
    cases d with
    | zero => exact .throw _
    | succ d =>
      refine .bind (.result _) fun half u tu _ => ?_
      have hb := hb.later tu
      split
      · refine (replicatePad_keeps hb).bind fun left v uv hl => ?_
        refine .bind (zeroLeaf_keeps d) fun right w vw hr => ?_
        exact newPair_keeps (hl.later vw) hr
      · refine (replicate_keeps hb).bind fun left v uv hl => ?_
        refine (replicatePad_keeps (hb.later uv)).bind fun right w vw hr => ?_
        exact newPair_keeps (hl.later vw) hr

theorem ofList_keeps : ∀ {d : Nat} {nodes : List Node} {s : Store}, (∀ n ∈ nodes, n.Known h s) →
    (Store.regime h).Keeps s (ofList h d nodes) fun n t => n.Known h t
  | d, [], _, _ => by
    rw [ofList]
    exact .throw _
  | 0, n :: rest, s, hn => by
    rw [ofList]
    refine .bind (.result _) fun _ t st _ => ?_
    exact .pure ((hn n (List.mem_cons_self ..)).later st)
  | d + 1, n :: rest, s, hn => by
    rw [ofList]
    refine .bind (.result _) fun _ t st _ => ?_
    refine .bind (.result _) fun half u tu _ => ?_
    have hn : ∀ m ∈ n :: rest, m.Known h u := fun m hm => ((hn m hm).later st).later tu
    split
    · refine (ofList_keeps hn).bind fun left v uv hl => ?_
      refine .bind (zeroLeaf_keeps d) fun right w vw hr => ?_
      exact newPair_keeps (hl.later vw) hr
    · refine (ofList_keeps fun m hm => hn m (List.mem_of_mem_take hm)).bind fun left v uv hl => ?_
      refine (ofList_keeps fun m hm => (hn m (List.mem_of_mem_drop hm)).later uv).bind
        fun right w vw hr => ?_
      exact newPair_keeps (hl.later vw) hr

/-! ## Hashing -/

theorem root_keeps {n : Node} (hn : n.Known h s) :
    (Store.regime h).Keeps s (liftM (n.root h)) fun c _ => c = n.digest h := by
  induction n generalizing s with
  | leaf i c => exact .pure rfl
  | pair i l r ihl ihr =>
    rw [root, liftM_bind]
    -- a kept root is that of the pair; otherwise it is kept once both sides have given theirs
    refine (Store.kept_keeps i).bind fun kept t st hk => ?_
    obtain ⟨hm, hl, hr⟩ := hn.later st
    cases kept with
    | some c => exact .pure (hk rfl hm)
    | none =>
      rw [liftM_bind]
      refine (ihl hl).bind ?_
      rintro _ u tu rfl
      rw [liftM_bind]
      refine (ihr (hr.later tu)).bind ?_
      rintro _ v uv rfl
      exact Store.keep_keeps (n := .pair i l r) (uv.made (tu.made hm))

/-- What hashing a pair answers is what is kept for it from then on. -/
theorem cached_root (i : Nat) (l r : Node) (s : Store) :
    (((pair i l r).root h).run s).2.cached (.pair i l r) = some (((pair i l r).root h).run s).1 := by
  unfold root Store.kept
  simp only [bind_assoc, StateT.run_bind, StateT.run_get, pure_bind]
  split
  · assumption
  · simp only [StateT.run_bind]
    exact Store.kept_of_keep ..

/-- Whichever half of a pair is hashed first. -/
theorem rootInHalves_keeps {rightFirst : Nat → Bool} : ∀ {levels : Nat} {n : Node} {s : Store},
    n.Known h s → (Store.regime h).Keeps s (liftM (n.rootInHalves h rightFirst levels))
      fun c _ => c = n.digest h
  | levels, .leaf _ _, _, _ => by
    rw [rootInHalves]
    exact .pure rfl
  | 0, .pair _ _ _, _, hn => root_keeps hn
  | levels + 1, .pair i l r, s, hn => by
    rw [rootInHalves, liftM_bind]
    refine (Store.kept_keeps i).bind fun kept t st hk => ?_
    obtain ⟨hm, hl, hr⟩ := hn.later st
    cases kept with
    | some c => exact .pure (hk rfl hm)
    | none =>
      dsimp only
      split
      · rw [liftM_bind]
        refine (rootInHalves_keeps hr).bind ?_
        rintro _ u tu rfl
        rw [liftM_bind]
        refine (rootInHalves_keeps (hl.later tu)).bind ?_
        rintro _ v uv rfl
        exact Store.keep_keeps (n := .pair i l r) (uv.made (tu.made hm))
      · rw [liftM_bind]
        refine (rootInHalves_keeps hl).bind ?_
        rintro _ u tu rfl
        rw [liftM_bind]
        refine (rootInHalves_keeps (hr.later tu)).bind ?_
        rintro _ v uv rfl
        exact Store.keep_keeps (n := .pair i l r) (uv.made (tu.made hm))

theorem branch_keeps {target : Gindex} : ∀ {path : List Bool} {n : Node} {s : Store}, n.Known h s →
    (Store.regime h).Keeps s (n.branch h target path) fun _ _ => True
  | [], n, _, _ => by
    cases n <;> exact .pure trivial
  | right :: path, .leaf _ c, s, _ => by
    rw [branch]
    refine .bind (.result _) fun zero t _ _ => ?_
    split
    · exact .throw_bind _
    · exact .result _
  | right :: path, .pair i l r, s, ⟨_, hl, hr⟩ => by
    have next : (if right then r else l).Known h s := by split <;> assumption
    have sibling : (if right then l else r).Known h s := by split <;> assumption
    rw [branch]
    refine (root_keeps sibling).bind fun _ t st _ => ?_
    exact (branch_keeps (next.later st)).reply _

theorem prove_keeps {n : Node} (hn : n.Known h s) (g : Gindex) :
    (Store.regime h).Keeps s (n.prove h g) fun _ _ => True :=
  (branch_keeps hn).bind fun _ _ st _ => (root_keeps (hn.later st)).reply _

/-! ## Following paths and replacing nodes -/

theorem follow_known {target : Gindex} : ∀ {path : List Bool} {n m : Node}, n.Known h s →
    n.follow target path = .ok m → m.Known h s
  | [], n, m, hn, e => by
    cases n <;> cases e <;> exact hn
  | _ :: _, .leaf _ _, _, _, e => by cases e
  | right :: path, .pair _ l r, m, ⟨_, hl, hr⟩, e => by
    rw [follow] at e
    exact follow_known (by split <;> assumption) e

end Node

/-- What a graft keeps beside the path is known. -/
def Graft.Known (h : Hasher) (s : Store) : Graft → Prop
  | identity => True
  | asLeft right => right.Known h s
  | asRight left => left.Known h s
  | seq inner outer => inner.Known h s ∧ outer.Known h s

namespace Graft

theorem Known.later {g : Graft} (hg : g.Known h s) (st : s.Later h t) : g.Known h t := by
  induction g with
  | identity => trivial
  | asLeft right => exact Node.Known.later hg st
  | asRight left => exact Node.Known.later hg st
  | seq inner outer ihi iho => exact ⟨ihi hg.1, iho hg.2⟩

theorem Known.comp {inner outer : Graft} (hi : inner.Known h s) (ho : outer.Known h s) :
    (comp inner outer).Known h s := by
  unfold Graft.comp
  split
  · exact ho
  · exact hi
  · exact ⟨hi, ho⟩

theorem ofSteps_known {steps : List Graft} (hg : ∀ g ∈ steps, g.Known h s) :
    (ofSteps steps).Known h s := by
  suffices above : ∀ upper : Graft, upper.Known h s →
      (steps.foldl (fun upper step => Graft.comp step upper) upper).Known h s from above _ trivial
  induction steps with
  | nil => exact fun _ hu => hu
  | cons step steps ih =>
    intro upper hu
    exact ih (fun g hmem => hg g (List.mem_cons_of_mem _ hmem)) _
      (.comp (hg step (List.mem_cons_self ..)) hu)

theorem step_known {right : Bool} {l r : Node} (hl : l.Known h s) (hr : r.Known h s) :
    (step right l r).Known h s := by
  cases right
  · exact hr
  · exact hl

theorem apply_keeps : ∀ {g : Graft} {n : Node} {s : Store}, g.Known h s → n.Known h s →
    (Store.regime h).Keeps s (liftM (g.apply n)) fun m t => m.Known h t
  | identity, _, _, _, hn => .pure hn
  | asLeft _, _, _, hr, hn => Node.newPair_keeps hn hr
  | asRight _, _, _, hl, hn => Node.newPair_keeps hl hn
  | seq inner outer, _, s, ⟨hi, ho⟩, hn => by
    rw [apply, liftM_bind]
    exact (apply_keeps hi hn).bind fun m t st hm => apply_keeps (ho.later st) hm

end Graft

namespace Node

theorem stepsTo_known {target : Gindex} : ∀ {path : List Bool} {n : Node} {steps : List Graft},
    n.Known h s → n.stepsTo target path = .ok steps → ∀ g ∈ steps, g.Known h s
  | [], n, _, _, e => by
    cases n <;> cases e <;> exact nofun
  | _ :: _, .leaf _ _, _, _, e => by cases e
  | right :: path, .pair _ l r, _, ⟨_, hl, hr⟩, e => by
    rw [stepsTo] at e
    obtain ⟨steps, hsteps, e⟩ := bind_eq_ok e
    cases e
    have next : (if right then r else l).Known h s := by split <;> assumption
    exact List.forall_mem_cons.2 ⟨Graft.step_known hl hr, stepsTo_known next hsteps⟩

theorem zeroSteps_known : ∀ {path : List Bool} {steps : List Graft},
    zeroSteps h path = .ok steps → ∀ g ∈ steps, g.Known h s
  | [], _, e => by
    cases e
    exact nofun
  | right :: path, _, e => by
    obtain ⟨sibling, hsibling, e⟩ := bind_eq_ok e
    obtain ⟨steps, hsteps, e⟩ := bind_eq_ok e
    cases e
    have known := zeroLeaf_known (s := s) hsibling
    exact List.forall_mem_cons.2 ⟨Graft.step_known known known, zeroSteps_known hsteps⟩

theorem stepsInto_known {target : Gindex} : ∀ {path : List Bool} {n : Node} {steps : List Graft},
    n.Known h s → n.stepsInto h target path = .ok steps → ∀ g ∈ steps, g.Known h s
  | [], n, _, _, e => by
    cases n <;> cases e <;> exact nofun
  | _ :: path, .leaf _ c, _, _, e => by
    rw [stepsInto] at e
    obtain ⟨zero, -, e⟩ := bind_eq_ok e
    split at e
    · exact zeroSteps_known e
    · cases e
  | right :: path, .pair _ l r, _, ⟨_, hl, hr⟩, e => by
    rw [stepsInto] at e
    obtain ⟨steps, hsteps, e⟩ := bind_eq_ok e
    cases e
    have next : (if right then r else l).Known h s := by split <;> assumption
    exact List.forall_mem_cons.2 ⟨Graft.step_known hl hr, stepsInto_known next hsteps⟩

theorem graftAt_known {n : Node} {g : Gindex} {graft : Graft} (hn : n.Known h s)
    (e : n.graftAt g = .ok graft) : graft.Known h s := by
  obtain ⟨steps, hsteps, e⟩ := bind_eq_ok e
  cases e
  exact Graft.ofSteps_known (stepsTo_known hn hsteps)

theorem graftInto_known {n : Node} {g : Gindex} {graft : Graft} (hn : n.Known h s)
    (e : n.graftInto h g = .ok graft) : graft.Known h s := by
  obtain ⟨steps, hsteps, e⟩ := bind_eq_ok e
  cases e
  exact Graft.ofSteps_known (stepsInto_known hn hsteps)

theorem get_keeps {n : Node} (hn : n.Known h s) (g : Gindex) :
    (Store.regime h).Keeps s (liftM (n.get g)) fun m t => m.Known h t :=
  .lift fun _ => follow_known hn

theorem graftAt_keeps {n : Node} (hn : n.Known h s) (g : Gindex) :
    (Store.regime h).Keeps s (liftM (n.graftAt g)) fun graft t => graft.Known h t :=
  .lift fun _ => graftAt_known hn

theorem graftInto_keeps {n : Node} (hn : n.Known h s) (g : Gindex) :
    (Store.regime h).Keeps s (liftM (n.graftInto h g)) fun graft t => graft.Known h t :=
  .lift fun _ => graftInto_known hn

end Node

/-! ## Views and lists -/

namespace LevelView

variable {v : LevelView}

theorem get_known (hv : v.backing.Known h s) {i : Nat} {n : Node} (e : v.get i = .ok n) :
    n.Known h s := by
  obtain ⟨g, -, e⟩ := bind_eq_ok e
  exact Node.follow_known hv e

theorem get_keeps (hv : v.backing.Known h s) (i : Nat) :
    (Store.regime h).Keeps s (liftM (v.get i)) fun n t => n.Known h t :=
  .lift fun _ => get_known hv

theorem set_keeps (hv : v.backing.Known h s) (i : Nat) {n : Node} (hn : n.Known h s) :
    (Store.regime h).Keeps s (v.set i n) fun w t => w.backing.Known h t := by
  refine .bind (.result _) fun g t st _ => ?_
  refine (Node.graftAt_keeps (hv.later st) g).bind fun graft u tu hg => ?_
  refine (Graft.apply_keeps hg (hn.later (st.trans tu))).bind fun backing _ _ hb => .pure hb

end LevelView

namespace MerkleList

/-- A list under the hasher, its tree known. -/
def Known (h : Hasher) (s : Store) (l : MerkleList) : Prop := l.hasher = h ∧ l.backing.Known h s

variable {l : MerkleList}

theorem Known.later (hl : l.Known h s) (st : s.Later h t) : l.Known h t := ⟨hl.1, hl.2.later st⟩

theorem withLength_keeps {backing : Node} (hb : backing.Known h s) (length : Nat) :
    (Store.regime h).Keeps s (withLength backing length) fun n t => n.Known h t := by
  refine (Node.graftAt_keeps hb _).bind fun graft t st hg => ?_
  refine (Node.newLeaf_keeps _).bind fun chunk u tu hc => ?_
  exact Graft.apply_keeps (hg.later tu) hc

theorem empty_keeps (limit : Nat) :
    (Store.regime h).Keeps s (empty h limit) fun l t => l.Known h t := by
  refine (Node.zeroLeaf_keeps _).bind fun content t st hcontent => ?_
  refine (Node.zeroLeaf_keeps _).bind fun chunk u tu hchunk => ?_
  exact (Node.newPair_keeps (hcontent.later tu) hchunk).bind fun _ _ _ hb => .pure ⟨rfl, hb⟩

theorem ofBacking_known {backing : Node} (hb : backing.Known h s) {limit : Nat}
    (e : ofBacking h backing limit = .ok l) : l.Known h s := by
  obtain ⟨n, -, e⟩ := bind_eq_ok e
  cases n with
  | pair _ _ _ => cases e
  | leaf _ c =>
    dsimp only at e
    split at e
    · cases e
    · cases e
      exact ⟨rfl, hb⟩

theorem get_known (hl : l.Known h s) {i : Nat} {n : Node} (e : l.get i = .ok n) : n.Known h s := by
  obtain ⟨_, -, e⟩ := bind_eq_ok e
  exact LevelView.get_known hl.2 e

theorem ofBacking_keeps {backing : Node} (hb : backing.Known h s) (limit : Nat) :
    (Store.regime h).Keeps s (liftM (ofBacking h backing limit)) fun l t => l.Known h t :=
  .lift fun _ => ofBacking_known hb

theorem get_keeps (hl : l.Known h s) (i : Nat) :
    (Store.regime h).Keeps s (liftM (l.get i)) fun n t => n.Known h t :=
  .lift fun _ => get_known hl

theorem set_keeps (hl : l.Known h s) (i : Nat) {n : Node} (hn : n.Known h s) :
    (Store.regime h).Keeps s (l.set i n) fun l t => l.Known h t := by
  refine .bind (.result _) fun _ t st _ => ?_
  refine (LevelView.set_keeps (hl.2.later st) i (hn.later st)).bind fun _ _ _ hv => ?_
  exact .pure ⟨hl.1, hv⟩

theorem append_keeps (hl : l.Known h s) {n : Node} (hn : n.Known h s) :
    (Store.regime h).Keeps s (l.append n) fun l t => l.Known h t := by
  obtain ⟨rfl, hb⟩ := hl
  unfold append
  split
  · exact .bind (.result _) fun _ _ _ _ => .throw_bind _
  refine .bind (.result _) fun g t st _ => ?_
  refine (Node.graftInto_keeps (hb.later st) g).bind fun graft u tu hg => ?_
  refine (Graft.apply_keeps hg (hn.later (st.trans tu))).bind fun grown v _ hgrown => ?_
  exact (withLength_keeps hgrown _).bind fun _ _ _ hbacking => .pure ⟨rfl, hbacking⟩

theorem pop_keeps (hl : l.Known h s) :
    (Store.regime h).Keeps s l.pop fun (n, l) t => n.Known h t ∧ l.Known h t := by
  obtain ⟨rfl, hb⟩ := hl
  unfold pop
  split
  · exact .throw_bind _
  refine .bind (.result _) fun g t st _ => ?_
  have hb := hb.later st
  refine (Node.get_keeps hb g).bind fun popped u tu hpopped => ?_
  refine (Node.graftAt_keeps (hb.later tu) g).bind fun graft v uv hg => ?_
  refine (Node.zeroLeaf_keeps 0).bind fun zero w vw hzero => ?_
  refine (Graft.apply_keeps (hg.later vw) hzero).bind fun cleared x wx hcleared => ?_
  refine (withLength_keeps hcleared _).bind fun backing y xy hbacking => ?_
  exact .pure ⟨hpopped.later (uv.trans (vw.trans (wx.trans xy))), rfl, hbacking⟩

end MerkleList

end SszMerkle
