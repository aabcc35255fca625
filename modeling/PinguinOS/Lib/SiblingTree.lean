import PinguinOS.Lib.Linked

/-! Trees kept in memory by first child, next sibling and parent links. -/
namespace SiblingTree

open Linked

variable {α : Type*}

structure Links (α : Type*) where
  children : α → α
  siblings : α → α
  parent : α → α

inductive Turn
  | child
  | sibling

/-- A walk from the root along the links, its last turn first. -/
inductive Walk (null root : α) (L : Links α) : α → List Turn → Prop
  | root : Walk null root L root []
  | child {d : α} {w : List Turn} (hd : Walk null root L d w) (hne : L.children d ≠ null) :
    Walk null root L (L.children d) (.child :: w)
  | sibling {b : α} {w : List Turn} (hb : Walk null root L b w) (hne : L.siblings b ≠ null) :
    Walk null root L (L.siblings b) (.sibling :: w)

/-- The children of each node are on its list, and nothing else. -/
structure Kept (null root : α) (L : Links α) (live : α → Prop) : Prop where
  rootLive : live root
  nullDead : ¬ live null
  rootParent : L.parent root = null
  rootSibling : L.siblings root = null
  kids : ∀ d, live d →
    ∃ l, Chain null L.siblings (L.children d) l ∧ ∀ c, c ∈ l ↔ live c ∧ L.parent c = d

/-- The parents of the node lead to the root, over nodes that are live. -/
inductive Under (root : α) (L : Links α) (live : α → Prop) : α → Prop
  | root : Under root L live root
  | child {c : α} (hparent : Under root L live (L.parent c)) (hc : live c) : Under root L live c

/-- Every node is below the root. -/
structure Tree (null root : α) (L : Links α) (live : α → Prop) : Prop
    extends Kept null root L live where
  under : ∀ a, live a → Under root L live a

/-- `p` becomes the first child of `d`. -/
def Links.push [DecidableEq α] (L : Links α) (d p : α) : Links α where
  children := Function.update L.children d p
  siblings := Function.update L.siblings p (L.children d)
  parent := Function.update L.parent p d

/-- The link to `x`, from the parent `d` or from the sibling before, is set past `x`. -/
def Links.unlink [DecidableEq α] (L : Links α) (d : α) (prev : Option α) (x : α) : Links α :=
  match prev with
  | none => { L with children := Function.update L.children d (L.siblings x) }
  | some b => { L with siblings := Function.update L.siblings b (L.siblings x) }

variable {null root a b c d p x : α} {L : Links α} {live : α → Prop} {l xs ys : List α}
  {w w' : List Turn}

theorem walk_cases (h : Walk null root L a w) : (a = root ∧ w = []) ∨
    (∃ d v, Walk null root L d v ∧ L.children d = a ∧ a ≠ null ∧ w = .child :: v) ∨
      ∃ b v, Walk null root L b v ∧ L.siblings b = a ∧ a ≠ null ∧ w = .sibling :: v := by
  cases h with
  | root => exact Or.inl ⟨rfl, rfl⟩
  | child hd hne => exact Or.inr (Or.inl ⟨_, _, hd, rfl, hne, rfl⟩)
  | sibling hb hne => exact Or.inr (Or.inr ⟨_, _, hb, rfl, hne, rfl⟩)

/-- The links of live nodes are all that counts. -/
theorem Kept.congr {L' : Links α} (h : Kept null root L live)
    (hsame : ∀ a, live a → L'.children a = L.children a ∧ L'.siblings a = L.siblings a ∧
      L'.parent a = L.parent a) : Kept null root L' live := by
  constructor
  case rootLive => exact h.rootLive
  case nullDead => exact h.nullDead
  case rootParent => exact (hsame root h.rootLive).2.2.trans h.rootParent
  case rootSibling => exact (hsame root h.rootLive).2.1.trans h.rootSibling
  case kids =>
    intro d hd
    obtain ⟨l, hchain, hmem⟩ := h.kids d hd
    refine ⟨l, ?_, ?_⟩
    · rw [(hsame d hd).1]
      exact hchain.congr fun b hb => (hsame b ((hmem b).mp hb).1).2.1
    · intro c
      rw [hmem]
      exact and_congr_right fun hc => by rw [(hsame c hc).2.2]

/-- What is below the root stays so where the parents do. -/
theorem Under.congr {L' : Links α} {live' : α → Prop} (ha : Under root L live a)
    (hlive : ∀ b, live b → live' b) (hparent : ∀ b, live b → L'.parent b = L.parent b) :
    Under root L' live' a := by
  induction ha with
  | root => exact .root
  | child hup hc ih =>
    refine .child ?_ (hlive _ hc)
    rw [hparent _ hc]
    exact ih

theorem Tree.congr {L' : Links α} (h : Tree null root L live)
    (hsame : ∀ a, live a → L'.children a = L.children a ∧ L'.siblings a = L.siblings a ∧
      L'.parent a = L.parent a) : Tree null root L' live := by
  refine ⟨h.toKept.congr hsame, ?_⟩
  intro a ha
  exact (h.under a ha).congr (fun _ hb => hb) fun b hb => (hsame b hb).2.2

theorem Under.isLive (hkept : Kept null root L live) (h : Under root L live a) : live a := by
  cases h with
  | root => exact hkept.rootLive
  | child hparent hc => exact hc

/-- A node that is not the root has a parent. -/
theorem Under.parent (hkept : Kept null root L live) (h : Under root L live a) (hne : a ≠ root) :
    live (L.parent a) := by
  cases h with
  | root => exact absurd rfl hne
  | child hparent hc => exact hparent.isLive hkept

/-- No node is its own parent. -/
theorem Under.parent_ne (hkept : Kept null root L live) (h : Under root L live a) :
    L.parent a ≠ a := by
  induction h with
  | root =>
    rw [hkept.rootParent]
    rintro rfl
    exact hkept.nullDead hkept.rootLive
  | child hparent hc ih =>
    intro heq
    rw [heq] at ih
    exact ih heq

/-- The first child is a child. -/
theorem Kept.first (h : Kept null root L live) (hd : live d) (hne : L.children d ≠ null) :
    live (L.children d) ∧ L.parent (L.children d) = d := by
  obtain ⟨l, hchain, hmem⟩ := h.kids d hd
  cases l with
  | nil => exact absurd hchain hne
  | cons c l =>
    refine (hmem _).mp ?_
    rw [hchain.1]
    exact List.mem_cons_self

/-- The next sibling has the same parent. -/
theorem Kept.next (h : Kept null root L live) (hb : Under root L live b)
    (hne : L.siblings b ≠ null) : b ≠ root ∧ live (L.siblings b) ∧
      L.parent (L.siblings b) = L.parent b := by
  have hroot : b ≠ root := by
    rintro rfl
    exact hne h.rootSibling
  obtain ⟨l, hchain, hmem⟩ := h.kids _ (hb.parent h hroot)
  have hin : b ∈ l := (hmem b).mpr ⟨hb.isLive h, rfl⟩
  exact ⟨hroot, (hmem _).mp (hchain.next_mem hin hne)⟩

/-- A walk stays below the root. -/
theorem Walk.under (h : Kept null root L live) (hw : Walk null root L a w) :
    Under root L live a := by
  induction hw with
  | root => exact .root
  | child hd hne ih =>
    obtain ⟨hlive, hparent⟩ := h.first (ih.isLive h) hne
    refine .child ?_ hlive
    rw [hparent]
    exact ih
  | sibling hb hne ih =>
    obtain ⟨hroot, hlive, hparent⟩ := h.next ih hne
    refine .child ?_ hlive
    rw [hparent]
    cases ih with
    | root => exact absurd rfl hroot
    | child hup _ => exact hup

theorem chain_walk (hchain : Chain null L.siblings a l)
    (ha : a ≠ null → ∃ w, Walk null root L a w) (hc : c ∈ l) : ∃ w, Walk null root L c w := by
  induction l generalizing a with
  | nil => cases hc
  | cons b l ih =>
    obtain ⟨rfl, hne, hrest⟩ := hchain
    obtain ⟨w, hw⟩ := ha hne
    rcases List.mem_cons.mp hc with rfl | hc
    · exact ⟨w, hw⟩
    · exact ih hrest (fun hnext => ⟨_, .sibling hw hnext⟩) hc

/-- What is below the root can be walked to. -/
theorem Under.walk (h : Kept null root L live) (ha : Under root L live a) :
    ∃ w, Walk null root L a w := by
  induction ha with
  | root => exact ⟨[], .root⟩
  | @child c hparent hc ih =>
    obtain ⟨v, hv⟩ := ih
    obtain ⟨l, hchain, hmem⟩ := h.kids _ (hparent.isLive h)
    refine chain_walk hchain (fun hne => ⟨_, .child hv hne⟩) ?_
    exact (hmem c).mpr ⟨hc, rfl⟩

/-- There is one way to walk to a node. -/
theorem Walk.unique (h : Kept null root L live) (hw : Walk null root L a w)
    (hw' : Walk null root L a w') : w = w' := by
  have hroot : ∀ b v, Walk null root L b v → L.children b ≠ root ∧ L.siblings b ≠ root := by
    intro b v hb
    have hnull : root ≠ null := by
      rintro rfl
      exact h.nullDead h.rootLive
    have hup := hb.under h
    constructor
    · intro heq
      have hparent := (h.first (hup.isLive h) (heq ▸ hnull)).2
      rw [heq, h.rootParent] at hparent
      exact h.nullDead (hparent ▸ hup.isLive h)
    · intro heq
      obtain ⟨hne, -, hparent⟩ := h.next hup (heq ▸ hnull)
      rw [heq, h.rootParent] at hparent
      exact h.nullDead (hparent ▸ hup.parent h hne)
  have hcross : ∀ d b v v', Walk null root L d v → Walk null root L b v' →
      L.children d = L.siblings b → L.children d ≠ null → False := by
    intro d b v v' hd hb heq hne
    obtain ⟨hlive, hparent⟩ := h.first ((hd.under h).isLive h) hne
    obtain ⟨-, -, hsame⟩ := h.next (hb.under h) (heq ▸ hne)
    rw [← heq, hparent] at hsame
    obtain ⟨l, hchain, hmem⟩ := h.kids d ((hd.under h).isLive h)
    have hin : b ∈ l := (hmem b).mpr ⟨(hb.under h).isLive h, hsame.symm⟩
    exact hchain.next_ne_first hin heq.symm
  induction hw generalizing w' with
  | root =>
    rcases walk_cases hw' with ⟨-, rfl⟩ | ⟨d, v, hd, heq, -⟩ | ⟨b, v, hb, heq, -⟩
    · rfl
    · exact absurd heq (hroot d v hd).1
    · exact absurd heq (hroot b v hb).2
  | @child d v hd hne ih =>
    rcases walk_cases hw' with ⟨heq, -⟩ | ⟨d', v', hd', heq, -, rfl⟩ | ⟨b, v', hb, heq, -, -⟩
    · exact absurd heq (hroot d v hd).1
    · have hparent := (h.first ((hd.under h).isLive h) hne).2
      have hparent' := (h.first ((hd'.under h).isLive h) (heq ▸ hne)).2
      rw [heq, hparent] at hparent'
      subst hparent'
      rw [ih hd']
    · exact (hcross d b v v' hd hb heq.symm hne).elim
  | @sibling b v hb hne ih =>
    rcases walk_cases hw' with ⟨heq, -⟩ | ⟨d, v', hd, heq, hnull, -⟩ | ⟨c, v', hc, heq, -, rfl⟩
    · exact absurd heq (hroot b v hb).2
    · exact (hcross d b v' v hd hb heq (heq ▸ hnull)).elim
    · obtain ⟨hbroot, -, hparent⟩ := h.next (hb.under h) hne
      obtain ⟨-, -, hparent'⟩ := h.next (hc.under h) (heq ▸ hne)
      rw [heq, hparent] at hparent'
      obtain ⟨l, hchain, hmem⟩ := h.kids _ ((hb.under h).parent h hbroot)
      have hbin : b ∈ l := (hmem b).mpr ⟨(hb.under h).isLive h, rfl⟩
      have hcin : c ∈ l := (hmem c).mpr ⟨(hc.under h).isLive h, hparent'.symm⟩
      obtain rfl := hchain.next_inj hbin hcin heq.symm
      rw [ih hc]

/-- Each node of a tree is reached in one way, and nothing else is. -/
theorem Tree.once (h : Tree null root L live) (ha : live a) : ∃! w, Walk null root L a w := by
  obtain ⟨w, hw⟩ := (h.under a ha).walk h.toKept
  exact ⟨w, hw, fun _ hw' => hw'.unique h.toKept hw⟩

theorem Kept.tree (h : Kept null root L live) (hwalk : ∀ a, live a → ∃ w, Walk null root L a w) :
    Tree null root L live := by
  refine ⟨h, ?_⟩
  intro a ha
  obtain ⟨w, hw⟩ := hwalk a ha
  exact hw.under h

variable [DecidableEq α]

/-- A new node becomes the first child of `d`; no node has it as its parent. -/
theorem Kept.push (h : Kept null root L live) (hd : live d) (hp : ¬ live p) (hnull : p ≠ null)
    (hleaf : L.children p = null) (hold : ∀ a, live a → L.parent a ≠ p) :
    Kept null root (L.push d p) fun a => a = p ∨ live a := by
  have hne : ∀ a, live a → a ≠ p := fun a ha heq => hp (heq ▸ ha)
  have hparent : ∀ a, live a → (L.push d p).parent a = L.parent a :=
    fun a ha => Function.update_of_ne (hne a ha) _ _
  have hself : (L.push d p).parent p = d := Function.update_self _ _ _
  have hlink : ∀ a, live a → (L.push d p).siblings a = L.siblings a :=
    fun a ha => Function.update_of_ne (hne a ha) _ _
  constructor
  case rootLive => exact Or.inr h.rootLive
  case nullDead =>
    rintro (heq | hlive)
    · exact hnull heq.symm
    · exact h.nullDead hlive
  case rootParent => rw [hparent root h.rootLive, h.rootParent]
  case rootSibling => rw [hlink root h.rootLive, h.rootSibling]
  case kids =>
    intro e he
    by_cases hep : e = p
    · subst hep
      refine ⟨[], ?_, ?_⟩
      · show Function.update L.children d e e = null
        rw [Function.update_of_ne (hne d hd).symm, hleaf]
      · intro c
        refine iff_of_false List.not_mem_nil ?_
        rintro ⟨rfl | hc, hup⟩
        · rw [hself] at hup
          exact hne d hd hup
        · rw [hparent c hc] at hup
          exact hold c hc hup
    have hlive := he.resolve_left hep
    obtain ⟨l, hchain, hmem⟩ := h.kids e hlive
    have hout : p ∉ l := fun hin => hp ((hmem p).mp hin).1
    by_cases hed : e = d
    · subst hed
      refine ⟨p :: l, ?_, ?_⟩
      · have hfirst : (L.push e p).children e = p := Function.update_self _ _ _
        rw [hfirst]
        exact hchain.push hout hnull
      · intro c
        rw [List.mem_cons, hmem]
        constructor
        · rintro (rfl | ⟨hc, hup⟩)
          · exact ⟨Or.inl rfl, hself⟩
          · exact ⟨Or.inr hc, (hparent c hc).trans hup⟩
        · rintro ⟨rfl | hc, hup⟩
          · exact Or.inl rfl
          · exact Or.inr ⟨hc, (hparent c hc).symm.trans hup⟩
    · refine ⟨l, ?_, ?_⟩
      · have hsame : (L.push d p).children e = L.children e := Function.update_of_ne hed _ _
        rw [hsame]
        exact hchain.update hout _
      · intro c
        rw [hmem]
        constructor
        · rintro ⟨hc, hup⟩
          exact ⟨Or.inr hc, (hparent c hc).trans hup⟩
        · rintro ⟨rfl | hc, hup⟩
          · rw [hself] at hup
            exact absurd hup.symm hed
          · exact ⟨hc, (hparent c hc).symm.trans hup⟩

theorem Tree.push (h : Tree null root L live) (hd : live d) (hp : ¬ live p) (hnull : p ≠ null)
    (hleaf : L.children p = null) :
    Tree null root (L.push d p) fun a => a = p ∨ live a := by
  -- a link to `p` as a parent would be older than `p`
  have hold : ∀ a, live a → L.parent a ≠ p := by
    intro a ha heq
    by_cases hroot : a = root
    · rw [hroot, h.rootParent] at heq
      exact hnull heq.symm
    · exact hp (heq ▸ (h.under a ha).parent h.toKept hroot)
  have hparent : ∀ a, live a → (L.push d p).parent a = L.parent a := by
    intro a ha
    have hne : a ≠ p := fun heq => hp (heq ▸ ha)
    exact Function.update_of_ne hne _ _
  have hunder : ∀ a, live a → Under root (L.push d p) (fun a => a = p ∨ live a) a :=
    fun a ha => (h.under a ha).congr (fun _ => Or.inr) hparent
  refine ⟨h.toKept.push hd hp hnull hleaf hold, ?_⟩
  rintro a (rfl | ha)
  · refine .child ?_ (Or.inl rfl)
    have hself : (L.push d a).parent a = d := Function.update_self _ _ _
    rw [hself]
    exact hunder d hd
  · exact hunder a ha

theorem Links.unlink_parent {prev : Option α} : (L.unlink d prev x).parent = L.parent := by
  cases prev with
  | none => rfl
  | some b => rfl

/-- The list of `d` without `x`, and the lists of the others. -/
theorem Kept.unlink_chains (h : Kept null root L live) (hd : live d)
    (hchain : Chain null L.siblings (L.children d) (xs ++ x :: ys))
    (hmem : ∀ c, c ∈ xs ++ x :: ys ↔ live c ∧ L.parent c = d) :
    Chain null (L.unlink d xs.getLast? x).siblings
        ((L.unlink d xs.getLast? x).children d) (xs ++ ys) ∧
      (L.unlink d xs.getLast? x).siblings root = null ∧
      ∀ e l, e ≠ d → (∀ c ∈ l, L.parent c = e) → Chain null L.siblings (L.children e) l →
        Chain null (L.unlink d xs.getLast? x).siblings
          ((L.unlink d xs.getLast? x).children e) l := by
  rcases List.eq_nil_or_concat xs with rfl | ⟨zs, b, rfl⟩
  · refine ⟨?_, h.rootSibling, ?_⟩
    · show Chain null L.siblings (Function.update L.children d (L.siblings x) d) ys
      rw [Function.update_self]
      exact hchain.2.2
    · intro e l he _ hl
      show Chain null L.siblings (Function.update L.children d (L.siblings x) e) l
      rw [Function.update_of_ne he]
      exact hl
  · have hlast : (zs.concat b).getLast? = some b := by
      rw [List.concat_eq_append]
      exact List.getLast?_concat
    rw [List.concat_eq_append, List.append_assoc] at hchain hmem
    obtain ⟨hb, hbd⟩ := (hmem b).mp (List.mem_append_right _ List.mem_cons_self)
    rw [hlast, List.concat_eq_append, List.append_assoc]
    refine ⟨hchain.unlink, ?_, ?_⟩
    · show Function.update L.siblings b (L.siblings x) root = null
      rw [Function.update_of_ne ?_, h.rootSibling]
      rintro rfl
      rw [h.rootParent] at hbd
      exact h.nullDead (hbd ▸ hd)
    · intro e l he hl hkids
      refine hkids.update ?_ _
      intro hin
      exact he ((hl b hin).symm.trans hbd)

/-- A child is taken off the list of `d`. -/
theorem Kept.unlink (h : Kept null root L live) (hd : live d)
    (hchain : Chain null L.siblings (L.children d) (xs ++ x :: ys))
    (hmem : ∀ c, c ∈ xs ++ x :: ys ↔ live c ∧ L.parent c = d) :
    Kept null root (L.unlink d xs.getLast? x) fun a => live a ∧ a ≠ x := by
  have hnodup := hchain.nodup
  obtain ⟨hx, hxd⟩ := (hmem x).mp (List.mem_append_right _ List.mem_cons_self)
  have hroot : root ≠ x := by
    rintro rfl
    rw [h.rootParent] at hxd
    exact h.nullDead (hxd ▸ hd)
  have hout : x ∉ xs ++ ys := (List.nodup_cons.mp (List.nodup_middle.mp hnodup)).1
  have hparent : (L.unlink d xs.getLast? x).parent = L.parent := Links.unlink_parent
  obtain ⟨hown, hsibling, hothers⟩ := h.unlink_chains hd hchain hmem
  constructor
  case rootLive => exact ⟨h.rootLive, hroot⟩
  case nullDead => exact fun hlive => h.nullDead hlive.1
  case rootParent => rw [hparent, h.rootParent]
  case rootSibling => exact hsibling
  case kids =>
    rintro e ⟨he, hex⟩
    rw [hparent]
    by_cases hed : e = d
    · subst hed
      refine ⟨xs ++ ys, hown, ?_⟩
      intro c
      have hc := hmem c
      rw [List.mem_append, List.mem_cons] at hc
      constructor
      · intro hin
        have hne : c ≠ x := fun heq => hout (heq ▸ hin)
        rw [List.mem_append] at hin
        obtain ⟨hlive, hup⟩ := hc.mp (hin.imp_right Or.inr)
        exact ⟨⟨hlive, hne⟩, hup⟩
      · rintro ⟨⟨hlive, hne⟩, hup⟩
        rw [List.mem_append]
        exact (hc.mpr ⟨hlive, hup⟩).imp_right fun hin => hin.resolve_left hne
    · obtain ⟨l, hl, hlmem⟩ := h.kids e he
      refine ⟨l, hothers e l hed (fun c hin => ((hlmem c).mp hin).2) hl, ?_⟩
      intro c
      rw [hlmem]
      constructor
      · rintro ⟨hlive, hup⟩
        refine ⟨⟨hlive, ?_⟩, hup⟩
        rintro rfl
        exact hed (hup.symm.trans hxd)
      · rintro ⟨⟨hlive, -⟩, hup⟩
        exact ⟨hlive, hup⟩

/-- What is left is a tree exactly when the child had none of its own. -/
theorem Tree.unlink_iff (h : Tree null root L live) (hx : live x) {L' : Links α}
    (hparent : L'.parent = L.parent)
    (hkept : Kept null root L' fun a => live a ∧ a ≠ x) :
    Tree null root L' (fun a => live a ∧ a ≠ x) ↔ L.children x = null := by
  constructor
  · intro htree
    by_contra hne
    obtain ⟨hc, hup⟩ := h.first hx hne
    have hself := (h.under x hx).parent_ne h.toKept
    have hcx : L.children x ≠ x := by
      intro heq
      rw [heq] at hup
      exact hself hup
    have hcroot : L.children x ≠ root := by
      intro heq
      rw [heq, h.rootParent] at hup
      exact h.nullDead (hup ▸ hx)
    have hlost := (htree.under _ ⟨hc, hcx⟩).parent hkept hcroot
    rw [hparent, hup] at hlost
    exact hlost.2 rfl
  · intro hleaf
    refine ⟨hkept, ?_⟩
    rintro a ⟨ha, hax⟩
    have hunder := h.under a ha
    induction hunder with
    | root => exact .root
    | @child c hup hc ih =>
      refine .child ?_ ⟨hc, hax⟩
      rw [hparent]
      refine ih (hup.isLive h.toKept) ?_
      intro heq
      -- `c` would be on the empty list of `x`
      obtain ⟨l, hchain, hmem⟩ := h.kids x hx
      have hin : c ∈ l := (hmem c).mpr ⟨hc, heq⟩
      rw [hleaf] at hchain
      cases l with
      | nil => cases hin
      | cons b l => exact hchain.2.1 hchain.1.symm

end SiblingTree
