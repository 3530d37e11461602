import Mathlib
import Wrapfs.Namespace.LowerTree

/-!
# The mirror invariant

What holds of the upper dentries and inodes and the lower tree together, and the ways in which one
dentry or the lower tree may change without breaking it.

A hashed upper dentry has a lower path; its lower dentry is positive and hashed, has its name, has
the lower dentry of its parent as parent, and has the lower inode of its inode.  Two facts are
carried along because the step arguments need them:

* no two hashed dentries have the same lower dentry (`inj`).  A lookup only runs when no hashed
  dentry has the name, so what it finds below is not mirrored yet;
* no dentry has a lower path above the directory the mount starts from (`outside`).  The root is
  the one hashed dentry whose name and parent say nothing about its lower dentry, and this is what
  keeps others from having that lower dentry.

Every change the operations make is one of three: the lower tree changes where no hashed dentry
sees it (`MirrorInv.setLow`), an unhashed dentry is replaced or removed (`MirrorInv.setUnhashed`),
or a dentry becomes hashed or moves, together with the lower tree (`MirrorInv.setHashed`).  The
modules `Wrapfs.Namespace.MirrorLookup` and `Wrapfs.Namespace.MirrorChange` only ever use these.

## What a hashed dentry sees

The lower tree matters at the lower dentries of hashed dentries and nowhere else.  `SameEntry`
says that one lower dentry looks the same in two trees, in the fields the invariant reads: its
name, its parent and whether it is hashed; inodes are kept by `KeepsInodes`.  That a creation
below, a new negative lower dentry or a count of links disturbs nothing is then a fact about one
entry.

## Parameters

`super` is the lower super block, `lroot` the lower dentry of the directory that is mounted, and
`A` the lower dentries above it.  `A` is any set that contains the parents of its entries and of
`lroot`, and not `lroot` itself (`TreeInv.above`, `TreeInv.rootOut`); `Wrapfs.Namespace.Mirror`
chooses it when the super block is set up, and no step changes it.
-/

namespace Wrapfs.Namespace

open LowerTree

/-- The upper dentries and inodes over a lower tree. -/
abbrev TreeCore : Type := Core LowerTree LowerInode

namespace Core

/-- A hashed dentry is positive, and a positive one has a lower path to the lower
inode of its inode, on the lower super block. -/
def Attached (super : ℕ) (k : TreeCore) (e : UpperDentry) : Prop :=
  (e.hashed = true → e.inode ≠ none) ∧
    ∀ u, e.inode = some u → ∃ p x, e.fsdata = some (some p) ∧ k.hash.lowerOf u = some x ∧
      (k.low.dentries p.dentry).inode = some x ∧ x.sb = super

/-- The lower dentry of `e` has its name and the lower dentry of its parent as
parent. -/
def MirrorAt (k : TreeCore) (e : UpperDentry) : Prop :=
  ∃ p ep q, e.fsdata = some (some p) ∧
    k.dentries e.parent = some ep ∧ ep.hashed = true ∧ ep.fsdata = some (some q) ∧
    (k.low.dentries p.dentry).name = e.name ∧
    (k.low.dentries p.dentry).parent = q.dentry ∧
    (k.low.dentries p.dentry).hashed = true

end Core

/-- The invariant.  The root dentry is number 0. -/
structure MirrorInv (super lroot : ℕ) (A : Set ℕ) (k : TreeCore) : Prop where
  tree : TreeInv super lroot A k.low
  root : ∃ e m, k.dentries 0 = some e ∧ e.hashed = true ∧ e.name = "/" ∧
    e.fsdata = some (some ⟨lroot, m⟩)
  fresh : ∀ d, k.nextDentry ≤ d → k.dentries d = none
  hash : k.hash.Wf
  attached : ∀ d e, k.dentries d = some e → k.Attached super e
  mirror : ∀ d e, k.dentries d = some e → e.hashed = true → d ≠ 0 → k.MirrorAt e
  inj : ∀ d d' e e' p p', k.dentries d = some e → k.dentries d' = some e' →
    e.hashed = true → e'.hashed = true → e.fsdata = some (some p) →
    e'.fsdata = some (some p') → p.dentry = p'.dentry → d = d'
  outside : ∀ d e p, k.dentries d = some e → e.fsdata = some (some p) → p.dentry ∉ A

section Changes

variable {super lroot : ℕ} {A : Set ℕ} {k : TreeCore}

/-- A live dentry has been numbered. -/
theorem MirrorInv.lt (h : MirrorInv super lroot A k) {d : ℕ} {e : UpperDentry}
    (hd : k.dentries d = some e) : d < k.nextDentry := by
  by_contra hge
  rw [h.fresh d (Nat.le_of_not_lt hge)] at hd
  cases hd

/-- The lower dentry of a hashed dentry is positive. -/
theorem MirrorInv.exists_inode (h : MirrorInv super lroot A k) {d : ℕ} {e : UpperDentry}
    {p : LowerPath} (hd : k.dentries d = some e) (hhash : e.hashed = true)
    (hp : e.fsdata = some (some p)) : ∃ x, (k.low.dentries p.dentry).inode = some x := by
  obtain ⟨hpos, hinode⟩ := h.attached d e hd
  obtain ⟨u, hu⟩ := Option.ne_none_iff_exists'.mp (hpos hhash)
  obtain ⟨p', x, hp', -, hx, -⟩ := hinode u hu
  rw [hp] at hp'
  cases hp'
  exact ⟨x, hx⟩

/-- Children of unhashed dentries are not hashed. -/
theorem MirrorInv.no_child (h : MirrorInv super lroot A k) {d : ℕ}
    (hd : ∀ e, k.dentries d = some e → e.hashed = false) :
    ∀ d' e', k.dentries d' = some e' → e'.hashed = true → d' ≠ 0 → e'.parent ≠ d := by
  rintro d' e' hd' hhash' hne rfl
  obtain ⟨p, ep, q, -, hep, hhash, -⟩ := h.mirror d' e' hd' hhash' hne
  rw [hd ep hep] at hhash
  cases hhash

/-- The inodes may change as long as those of the dentries keep their lower
inodes. -/
theorem MirrorInv.setHash (h : MirrorInv super lroot A k) {hash : InodeHash LowerInode}
    (hwf : hash.Wf) (hkeep : ∀ d e u x, k.dentries d = some e → e.inode = some u →
      k.hash.lowerOf u = some x → hash.lowerOf u = some x) :
    MirrorInv super lroot A (k.setHash hash) := by
  refine ⟨h.tree, h.root, h.fresh, hwf, fun d e hd => ?_, h.mirror, h.inj, h.outside⟩
  obtain ⟨hpos, hinode⟩ := h.attached d e hd
  refine ⟨hpos, fun u hu => ?_⟩
  obtain ⟨p, x, hp, hlower, hx, hsb⟩ := hinode u hu
  exact ⟨p, x, hp, hkeep d e u x hd hu hlower, hx, hsb⟩

/-- The lower tree as a hashed dentry sees it at `l`. -/
def SameEntry (t t' : LowerTree) (l : ℕ) : Prop :=
  (t'.dentries l).name = (t.dentries l).name ∧
    (t'.dentries l).parent = (t.dentries l).parent ∧
    (t'.dentries l).hashed = (t.dentries l).hashed

theorem sameEntry_set_of_ne (t : LowerTree) {l l' : ℕ} (hl : l' ≠ l) (v : LowerDentry) :
    SameEntry t (t.set l v) l' := by
  rw [SameEntry, t.set_of_ne hl]
  exact ⟨rfl, rfl, rfl⟩

theorem SameEntry.trans {t t' t'' : LowerTree} {l : ℕ} (h : SameEntry t t' l)
    (h' : SameEntry t' t'' l) : SameEntry t t'' l :=
  ⟨h'.1.trans h.1, h'.2.1.trans h.2.1, h'.2.2.trans h.2.2⟩

/-- An attached dentry stays one while inodes keep their lower inodes. -/
theorem Core.Attached.mono {k' : TreeCore} {e : UpperDentry} (h : k.Attached super e)
    (hhash : k'.hash = k.hash) (hkeep : k.low.KeepsInodes k'.low) : k'.Attached super e := by
  refine ⟨h.1, fun u hu => ?_⟩
  obtain ⟨p, x, hp, hlower, hx, hsb⟩ := h.2 u hu
  exact ⟨p, x, hp, by rw [hhash]; exact hlower, hkeep _ x hx, hsb⟩

/-- **The lower tree changes** where no hashed dentry sees it. -/
theorem MirrorInv.setLow (h : MirrorInv super lroot A k) {t : LowerTree}
    (htree : TreeInv super lroot A t) (hkeep : k.low.KeepsInodes t)
    (hsame : ∀ d e p, k.dentries d = some e → e.hashed = true → d ≠ 0 →
      e.fsdata = some (some p) → SameEntry k.low t p.dentry) :
    MirrorInv super lroot A (k.setLow t) := by
  refine ⟨htree, h.root, h.fresh, h.hash, fun d e hd => (h.attached d e hd).mono rfl hkeep,
    fun d e hd hhash hne => ?_, h.inj, h.outside⟩
  obtain ⟨p, ep, q, hp, hep, hephash, hq, hname, hparent, hlhash⟩ := h.mirror d e hd hhash hne
  obtain ⟨hname', hparent', hhash'⟩ := hsame d e p hd hhash hne hp
  exact ⟨p, ep, q, hp, hep, hephash, hq, hname'.trans hname, hparent'.trans hparent,
    hhash'.trans hlhash⟩

/-- The attributes of the lower inodes do not matter. -/
theorem MirrorInv.recount (h : MirrorInv super lroot A k) {t : LowerTree}
    (ht : k.low.Recount t) : MirrorInv super lroot A (k.setLow t) := by
  have htree : TreeInv super lroot A t := h.tree.recount ht
  obtain ⟨a, rfl⟩ := ht
  exact h.setLow htree (fun _ _ hx => hx) fun _ _ _ _ _ _ _ => ⟨rfl, rfl, rfl⟩

/-- **An unhashed dentry is replaced or removed**, or a hashed one without hashed
children is unhashed. -/
theorem MirrorInv.setUnhashed (h : MirrorInv super lroot A k) {d : ℕ} (hd0 : d ≠ 0)
    (hlt : d < k.nextDentry)
    (hchild : ∀ d' e', k.dentries d' = some e' → e'.hashed = true → d' ≠ 0 → e'.parent ≠ d)
    {o : Option UpperDentry}
    (ho : ∀ e, o = some e → e.hashed = false ∧ k.Attached super e ∧
      ∀ p, e.fsdata = some (some p) → p.dentry ∉ A) :
    MirrorInv super lroot A (k.setDentry d o) := by
  -- a hashed dentry afterwards is one from before, and not `d`
  have hold : ∀ {d' e'}, (k.setDentry d o).dentries d' = some e' → e'.hashed = true →
      d' ≠ d ∧ k.dentries d' = some e' := by
    intro d' e' hd' hhash
    have hne : d' ≠ d := by
      rintro rfl
      rw [k.setDentry_self] at hd'
      rw [(ho e' hd').1] at hhash
      cases hhash
    exact ⟨hne, by rwa [k.setDentry_of_ne hne] at hd'⟩
  have hany : ∀ {d' e'}, (k.setDentry d o).dentries d' = some e' →
      o = some e' ∨ k.dentries d' = some e' := by
    intro d' e' hd'
    by_cases hne : d' = d
    · subst hne
      rw [k.setDentry_self] at hd'
      exact Or.inl hd'
    · rw [k.setDentry_of_ne hne] at hd'
      exact Or.inr hd'
  refine ⟨h.tree, ?_, fun d' hd' => ?_, h.hash, fun d' e' hd' => ?_,
    fun d' e' hd' hhash hne => ?_, fun d₁ d₂ e₁ e₂ p₁ p₂ hd₁ hd₂ hh₁ hh₂ => ?_,
    fun d' e' p hd' hp => ?_⟩
  · obtain ⟨e, m, he, hrest⟩ := h.root
    exact ⟨e, m, by rwa [k.setDentry_of_ne (Ne.symm hd0)], hrest⟩
  · have hd'lt : k.nextDentry ≤ d' := hd'
    rw [k.setDentry_of_ne (Nat.ne_of_gt (Nat.lt_of_lt_of_le hlt hd'lt))]
    exact h.fresh d' hd'
  · rcases hany hd' with ho' | hd'
    · exact (ho e' ho').2.1
    · exact h.attached d' e' hd'
  · obtain ⟨-, hd'⟩ := hold hd' hhash
    obtain ⟨p, ep, q, hp, hep, hrest⟩ := h.mirror d' e' hd' hhash hne
    refine ⟨p, ep, q, hp, ?_, hrest⟩
    rw [k.setDentry_of_ne (hchild d' e' hd' hhash hne)]
    exact hep
  · exact h.inj d₁ d₂ e₁ e₂ p₁ p₂ (hold hd₁ hh₁).2 (hold hd₂ hh₂).2 hh₁ hh₂
  · rcases hany hd' with ho' | hd'
    · exact (ho e' ho').2.2 p hp
    · exact h.outside d' e' p hd' hp

/-- **A dentry becomes hashed or moves**, together with the lower tree. -/
theorem MirrorInv.setHashed (h : MirrorInv super lroot A k) {d : ℕ} (hd0 : d ≠ 0)
    (hlt : d < k.nextDentry) {t : LowerTree} {e : UpperDentry} {p : LowerPath}
    (htree : TreeInv super lroot A t) (hkeep : k.low.KeepsInodes t)
    (hsame : ∀ d' e' p', k.dentries d' = some e' → e'.hashed = true → d' ≠ 0 → d' ≠ d →
      e'.fsdata = some (some p') → SameEntry k.low t p'.dentry)
    (hhash : e.hashed = true) (hp : e.fsdata = some (some p)) (hA : p.dentry ∉ A)
    (hattached : ((k.setLow t).setDentry d (some e)).Attached super e)
    (hmirror : ((k.setLow t).setDentry d (some e)).MirrorAt e)
    (holdfs : ∀ e', k.dentries d = some e' → e'.hashed = true → e'.fsdata = e.fsdata)
    (hnew : ∀ d' e' p', k.dentries d' = some e' → e'.hashed = true → d' ≠ d →
      e'.fsdata = some (some p') → p'.dentry ≠ p.dentry) :
    MirrorInv super lroot A ((k.setLow t).setDentry d (some e)) := by
  set k' := (k.setLow t).setDentry d (some e) with hk'
  have hself : k'.dentries d = some e := Core.setDentry_self _ _ _
  have hother : ∀ {d'}, d' ≠ d → k'.dentries d' = k.dentries d' :=
    fun hne => (k.setLow t).setDentry_of_ne hne _
  refine ⟨htree, ?_, fun d' hd' => ?_, h.hash, fun d' e' hd' => ?_,
    fun d' e' hd' hhash' hne => ?_, fun d₁ d₂ e₁ e₂ p₁ p₂ hd₁ hd₂ hh₁ hh₂ hp₁ hp₂ heq => ?_,
    fun d' e' p' hd' hp' => ?_⟩
  · obtain ⟨er, m, her, hrest⟩ := h.root
    exact ⟨er, m, by rwa [hother (Ne.symm hd0)], hrest⟩
  · have hd'lt : k.nextDentry ≤ d' := hd'
    rw [hother (Nat.ne_of_gt (Nat.lt_of_lt_of_le hlt hd'lt))]
    exact h.fresh d' hd'
  · by_cases hd'd : d' = d
    · rw [hd'd, hself] at hd'
      cases hd'
      exact hattached
    · rw [hother hd'd] at hd'
      exact (h.attached d' e' hd').mono rfl hkeep
  · by_cases hd'd : d' = d
    · rw [hd'd, hself] at hd'
      cases hd'
      exact hmirror
    · rw [hother hd'd] at hd'
      obtain ⟨p', ep, q, hp', hep, hephash, hq, hname, hparent, hlhash⟩ :=
        h.mirror d' e' hd' hhash' hne
      obtain ⟨hname', hparent', hhash''⟩ := hsame d' e' p' hd' hhash' hne hd'd hp'
      -- the parent is there as before, or is `d` with the path it had
      by_cases hpd : e'.parent = d
      · rw [hpd] at hep
        refine ⟨p', e, q, hp', by rw [hpd]; exact hself, hhash, ?_, hname'.trans hname,
          hparent'.trans hparent, hhash''.trans hlhash⟩
        rw [← holdfs ep hep hephash, hq]
      · exact ⟨p', ep, q, hp', by rw [hother hpd]; exact hep, hephash, hq, hname'.trans hname,
          hparent'.trans hparent, hhash''.trans hlhash⟩
  · by_cases h₁ : d₁ = d
    · by_cases h₂ : d₂ = d
      · rw [h₁, h₂]
      · rw [h₁, hself] at hd₁
        cases hd₁
        rw [hp] at hp₁
        cases hp₁
        rw [hother h₂] at hd₂
        exact absurd heq.symm (hnew d₂ e₂ p₂ hd₂ hh₂ h₂ hp₂)
    · by_cases h₂ : d₂ = d
      · rw [h₂, hself] at hd₂
        cases hd₂
        rw [hp] at hp₂
        cases hp₂
        rw [hother h₁] at hd₁
        exact absurd heq (hnew d₁ e₁ p₁ hd₁ hh₁ h₁ hp₁)
      · rw [hother h₁] at hd₁
        rw [hother h₂] at hd₂
        exact h.inj d₁ d₂ e₁ e₂ p₁ p₂ hd₁ hd₂ hh₁ hh₂ hp₁ hp₂ heq
  · by_cases hd'd : d' = d
    · rw [hd'd, hself] at hd'
      cases hd'
      rw [hp] at hp'
      cases hp'
      exact hA
    · rw [hother hd'd] at hd'
      exact h.outside d' e' p' hd' hp'

/-- A number is given to a new dentry. -/
theorem MirrorInv.bump (h : MirrorInv super lroot A k) :
    MirrorInv super lroot A { k with nextDentry := k.nextDentry + 1 } :=
  ⟨h.tree, h.root, fun d hd => h.fresh d (Nat.le_of_succ_le hd), h.hash, h.attached, h.mirror,
    h.inj, h.outside⟩

end Changes

end Wrapfs.Namespace
