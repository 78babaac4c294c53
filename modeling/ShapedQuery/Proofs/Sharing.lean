import Mathlib.Data.List.Perm.Subperm
import ShapedQuery.Proofs.Runs

/-! # Joins are shared

Two fields that need the same join of the same row use one join (`OwnedJoin.Shared`), as long as no
fragment goes on from two relations with equal joins (`Request.compile_shared`).

In a single context this is what `Compile.addJoin` sees to.  A nested context starts without joins
and does not know those made before, so it could repeat one only if a context over the same row had
been folded back already.  The row is that of a join which stands for the relation, and a join
stands for two relations only if their joins are equal; this is where `Json.same` has to be an
equivalence, which it is on values that repeat no key (`Json.Keyed`).

Without the condition joins are made twice (`Request.compile_repeats_join`). -/

namespace ShapedQuery

/-! ### Equal values -/

/-- If as many entries with names of their own are all found among others, then these are found
among the first in turn. -/
theorem Entries.exists_mem_of_matches {α β : Type} {R : α → β → Prop} {as : Entries α}
    {bs : Entries β} (hkeys : as.keys.Nodup) (hlength : as.length = bs.length)
    (h : ∀ e ∈ as, ∃ b, bs.get? e.1 = some b ∧ R e.2 b) :
    ∀ e ∈ bs, ∃ a, (e.1, a) ∈ as ∧ R a e.2 := by
  have hsub : as.keys ⊆ bs.keys := by
    intro key hkey
    obtain ⟨e, he, rfl⟩ := List.mem_map.mp hkey
    obtain ⟨b, hb, -⟩ := h e he
    exact List.mem_map_of_mem (f := Prod.fst) (mem_of_get? hb)
  have hperm : as.keys.Perm bs.keys := by
    refine (List.subperm_of_subset hkeys hsub).perm_of_length_le ?_
    simp [keys, hlength]
  have hkeys' : bs.keys.Nodup := hperm.nodup_iff.mp hkeys
  intro e he
  have hkey : e.1 ∈ as.keys := hperm.mem_iff.mpr (List.mem_map_of_mem he)
  obtain ⟨a, ha, heq⟩ := List.mem_map.mp hkey
  obtain ⟨b, hb, hR⟩ := h a ha
  rw [heq, get?_of_mem hkeys' he] at hb
  cases hb
  exact ⟨a.2, heq ▸ ha, hR⟩

theorem Double.same_self (x : Double) : x.same x = true := by simp [same]

theorem Double.same_of_same {x y z : Double} (hy : x.same y = true) (hz : x.same z = true) :
    y.same z = true := by
  simp only [same, Bool.or_eq_true, beq_iff_eq, Bool.and_eq_true] at hy hz ⊢
  rcases hy with rfl | hy
  · exact hz
  · rcases hz with rfl | hz
    · exact .inr hy.symm
    · exact .inr ⟨hy.2, hz.2⟩

namespace Json

theorem sameItems_iff {as bs : List Json} :
    sameItems as bs = true ↔ List.Forall₂ (fun a b => a.same b = true) as bs := by
  induction as generalizing bs with
  | nil => cases bs <;> simp [sameItems]
  | cons a as ih => cases bs <;> simp [sameItems, ih]

theorem sameItems_of_sameItems {as bs cs : List Json}
    (h : ∀ a ∈ as, ∀ b c, a.same b = true → a.same c = true → b.same c = true)
    (hb : sameItems as bs = true) (hc : sameItems as cs = true) : sameItems bs cs = true := by
  rw [sameItems_iff] at hb hc ⊢
  induction hb generalizing cs with
  | nil =>
      cases hc
      exact .nil
  | cons hfirst hrest ih =>
      rw [List.forall_mem_cons] at h
      obtain ⟨c, cs, hfirst', hrest', rfl⟩ := List.forall₂_cons_left_iff.mp hc
      exact .cons (h.1 _ _ hfirst hfirst') (ih h.2 hrest')

theorem sameEntries_iff {as bs : List (String × Json)} : sameEntries as bs = true ↔
    ∀ e ∈ as, ∃ b, Entries.get? bs e.1 = some b ∧ e.2.same b = true := by
  induction as with
  | nil => simp [sameEntries]
  | cons e as ih =>
      rw [sameEntries, Bool.and_eq_true, ih, List.forall_mem_cons]
      cases Entries.get? bs e.1 <;> simp

theorem Keyed.same_self {j : Json} (h : j.Keyed) : j.same j = true := by
  induction j using Json.induct with
  | null => rfl
  | bool b => simp [same]
  | int n => simp [same]
  | float x => simp [same, x.same_self]
  | str s => simp [same]
  | arr items ih =>
      have hitems := keyedItems_iff.mp h
      exact sameItems_iff.mpr (List.forall₂_same.mpr fun j hj => ih j hj (hitems j hj))
  | obj entries ih =>
      have hentries := keyedEntries_iff.mp h.2
      rw [same, beq_self_eq_true, Bool.true_and, sameEntries_iff]
      exact fun e he => ⟨e.2, Entries.get?_of_mem h.1 he, ih e he (hentries e he)⟩

/-- What is the same as one value is the same: together with `same_self`, this makes `same` an
equivalence. -/
theorem Keyed.same_of_same {a b c : Json} (h : a.Keyed) (hb : a.same b = true)
    (hc : a.same c = true) : b.same c = true := by
  induction a using Json.induct generalizing b c with
  | null => cases b <;> cases c <;> simp_all [same]
  | bool a => cases b <;> cases c <;> simp_all [same]
  | int n => cases b <;> cases c <;> simp_all [same]
  | float x =>
      cases b <;> cases c <;> simp only [same, Bool.false_eq_true] at hb hc ⊢
      exact Double.same_of_same hb hc
  | str s => cases b <;> cases c <;> simp_all [same]
  | arr items ih =>
      cases b <;> cases c <;> simp only [same, Bool.false_eq_true] at hb hc ⊢
      rename_i bs cs
      have hitems := keyedItems_iff.mp h
      exact sameItems_of_sameItems (fun a ha b c => ih a ha (hitems a ha)) hb hc
  | obj entries ih =>
      cases b <;> cases c <;> simp only [same, Bool.false_eq_true, Bool.and_eq_true, beq_iff_eq,
        sameEntries_iff] at hb hc ⊢
      have hentries := keyedEntries_iff.mp h.2
      refine ⟨hb.1.symm.trans hc.1, fun e he => ?_⟩
      obtain ⟨a, ha, hsame⟩ := Entries.exists_mem_of_matches
        (R := fun a b => a.same b = true) h.1 hb.1 hb.2 e he
      obtain ⟨c, hget, hsame'⟩ := hc.2 _ ha
      exact ⟨c, hget, ih _ ha (hentries _ ha) hsame hsame'⟩

end Json

/-! ### Equal joins -/

theorem JoinOperand.Keyed.same_self {o : JoinOperand} (h : o.Keyed) : o.same o = true := by
  cases o with
  | value j => exact Json.Keyed.same_self h
  | _ => exact beq_self_eq_true _

theorem JoinOperand.Keyed.same_of_same {a b c : JoinOperand} (h : a.Keyed) (hb : a.same b = true)
    (hc : a.same c = true) : b.same c = true := by
  cases a with
  | value j =>
      cases b <;> cases c <;> simp only [same, Bool.false_eq_true] at hb hc ⊢
      exact Json.Keyed.same_of_same h hb hc
  | _ => cases b <;> cases c <;> simp_all [same]

namespace JoinSpec

theorem same_iff {a b : JoinSpec} : a.same b = true ↔ a.table = b.table ∧ a.kind = b.kind ∧
    a.on.length = b.on.length ∧ ∀ e ∈ a.on, ∃ o, b.on.get? e.1 = some o ∧ e.2.same o = true := by
  simp only [same, Bool.and_eq_true, beq_iff_eq, decide_eq_true_eq, List.all_eq_true, and_assoc]
  refine and_congr_right fun _ => and_congr_right fun _ => and_congr_right fun _ => ?_
  refine forall₂_congr fun e _ => ?_
  cases b.on.get? e.1 <;> simp

theorem Keyed.same_self {spec : JoinSpec} (h : spec.Keyed) : spec.same spec = true := by
  refine same_iff.mpr ⟨rfl, rfl, rfl, fun e he => ?_⟩
  exact ⟨e.2, Entries.get?_of_mem h.columns he, (h.operands e he).same_self⟩

theorem Keyed.same_of_same {a b c : JoinSpec} (h : a.Keyed) (hb : a.same b = true)
    (hc : a.same c = true) : b.same c = true := by
  obtain ⟨htable, hkind, hlength, hon⟩ := same_iff.mp hb
  obtain ⟨htable', hkind', hlength', hon'⟩ := same_iff.mp hc
  refine same_iff.mpr ⟨htable.symm.trans htable', hkind.symm.trans hkind',
    hlength.symm.trans hlength', fun e he => ?_⟩
  obtain ⟨a, ha, hsame⟩ := Entries.exists_mem_of_matches (R := fun o o' => o.same o' = true)
    h.columns hlength hon e he
  obtain ⟨o, hget, hsame'⟩ := hon' _ ha
  exact ⟨o, hget, (h.operands _ ha).same_of_same hsame hsame'⟩

/-- No two of the joins are equal. -/
def Different (specs : List JoinSpec) : Prop := specs.Pairwise fun a b => a.same b = false

instance (specs : List JoinSpec) : Decidable (Different specs) :=
  inferInstanceAs (Decidable (List.Pairwise _ _))

end JoinSpec

/-! ### Joins that repeat others -/

namespace OwnedJoin

/-- Was `k` made though `j` has its owner and an equal join? -/
def repeats (k j : OwnedJoin) : Bool := k.spec.any fun spec => j.serves k.owner spec

/-- No join repeats one before it. -/
def Shared (joins : List OwnedJoin) : Prop := joins.Pairwise fun j k => k.repeats j = false

instance (joins : List OwnedJoin) : Decidable (Shared joins) :=
  inferInstanceAs (Decidable (List.Pairwise _ _))

theorem repeats_of_owner_ne {j k : OwnedJoin} (h : j.owner ≠ k.owner) : k.repeats j = false := by
  have hserves : ∀ spec, j.serves k.owner spec = false := fun spec => by simp [serves, h]
  simp [repeats, hserves]

/-- Joins that one join stands for are equal. -/
theorem StandsFor.same {j : OwnedJoin} {owner : String} {spec spec' : JoinSpec}
    (hkeyed : ∀ s, j.spec = some s → s.Keyed) (h : j.StandsFor owner spec)
    (h' : j.StandsFor owner spec') : spec.same spec' = true := by
  obtain ⟨-, s, hs, heq⟩ := h
  obtain ⟨-, s', hs', heq'⟩ := h'
  obtain rfl : s = s' := Option.some.inj (hs.symm.trans hs')
  have hself : s.same s = true := (hkeyed s hs).same_self
  have hfirst : s.same spec = true := heq.elim (fun he => he ▸ hself) id
  have hsecond : s.same spec' = true := heq'.elim (fun he => he ▸ hself) id
  exact (hkeyed s hs).same_of_same hfirst hsecond

end OwnedJoin

/-! ### Aliases to come -/

/-- The alias of a context and those of its joins. -/
def Context.labels (c : Context) : List String := c.label :: OwnedJoin.labels c.joins

/-- The aliases of a context are different from each other and from those that are still to be
drawn. -/
structure Work.Fresh (w : Work) : Prop where
  names : ∀ i k, w.aliases.name i = w.aliases.name k → i = k
  labels : w.context.labels.Nodup
  new : ∀ n, w.aliases.drawn ≤ n → w.aliases.name n ∉ w.context.labels

namespace Work

variable {w w' wc : Work} {opened done : List JoinSpec}

/-- Aliases that are drawn for joins are new. -/
theorem Fresh.not_mem_of_numbered (h : w.Fresh) {hi : Nat} {labels : List String}
    (hn : Numbered w.aliases.name w.aliases.drawn hi labels) :
    ∀ l ∈ labels, l ∉ w.context.labels := by
  obtain ⟨places, -, hrange, rfl⟩ := hn
  intro l hl
  obtain ⟨n, hmem, rfl⟩ := List.mem_map.mp hl
  exact h.new n (hrange n hmem).1

theorem Fresh.grows (h : w.Fresh) (hg : w.Grows w') : w'.Fresh := by
  obtain ⟨added, hjoins, hn⟩ := hg.joins
  have hlabels : w'.context.labels = w.context.labels ++ OwnedJoin.labels added := by
    rw [Context.labels, hjoins, hg.place.label, OwnedJoin.labels, List.map_append]
    rfl
  have hnew := h.not_mem_of_numbered hn
  obtain ⟨places, hplaces, hrange, heq⟩ := hn
  refine ⟨?_, ?_, ?_⟩
  · rw [hg.names]
    exact h.names
  · rw [hlabels]
    refine List.nodup_append.mpr ⟨h.labels, ?_, fun l hl l' hl' heq => hnew l' hl' (heq ▸ hl)⟩
    rw [heq]
    refine List.Nodup.map_on (fun i _ k _ => h.names i k) ?_
    exact hplaces.imp fun hlt => Nat.ne_of_lt hlt
  · intro n hle hmem
    rw [hlabels, hg.names, List.mem_append] at hmem
    rcases hmem with hmem | hmem
    · exact h.new n (Nat.le_trans hg.drawn hle) hmem
    · rw [heq] at hmem
      obtain ⟨k, hk, hname⟩ := List.mem_map.mp hmem
      have hlt := (hrange k hk).2
      have hkn := h.names k n hname
      omega

theorem Fresh.label_ne (h : w.Fresh) {j : OwnedJoin} (hj : j ∈ w.context.joins) :
    w.context.label ≠ j.join.label := by
  intro heq
  have hmem : j.join.label ∈ OwnedJoin.labels w.context.joins := List.mem_map_of_mem hj
  exact (List.nodup_cons.mp h.labels).1 (heq ▸ hmem)

theorem Fresh.eq_of_label (h : w.Fresh) {j k : OwnedJoin} (hj : j ∈ w.context.joins)
    (hk : k ∈ w.context.joins) (heq : j.join.label = k.join.label) : j = k :=
  List.inj_on_of_nodup_map (List.nodup_cons.mp h.labels).2 hj hk heq

/-- A context over the row of a join. -/
theorem Fresh.child (h : w.Fresh) {j : OwnedJoin} (hj : j ∈ w.context.joins) (table : NamedTable) :
    Work.Fresh ⟨w.context.child table j.join.label, w.aliases, w.dropped⟩ := by
  have hlabel : j.join.label ∈ w.context.labels := List.mem_cons_of_mem _ (List.mem_map_of_mem hj)
  refine ⟨h.names, List.nodup_singleton _, fun n hle hmem => h.new n hle ?_⟩
  rw [List.mem_singleton.mp hmem]
  exact hlabel

/-! ### What runs share -/

/-- Joins are owned by rows that are there and none repeats another.  Where joins were made from
the row of a join, the latter stands for one of those that were opened. -/
structure Shares (w : Work) (opened : List JoinSpec) : Prop where
  keyed : ∀ j ∈ w.context.joins, ∀ s, j.spec = some s → s.Keyed
  owners : ∀ j ∈ w.context.joins, j.owner ∈ w.context.labels
  shared : OwnedJoin.Shared w.context.joins
  opened : ∀ k ∈ w.context.joins, k.owner = w.context.label →
    ∀ j ∈ w.context.joins, j.owner = k.join.label →
      ∃ spec ∈ opened, k.StandsFor w.context.label spec

theorem shares_child (w : Work) (table : NamedTable) (label : String) :
    Work.Shares ⟨w.context.child table label, w.aliases, w.dropped⟩ [] :=
  ⟨List.forall_mem_nil _, List.forall_mem_nil _, List.Pairwise.nil, List.forall_mem_nil _⟩

theorem Shares.congr (h : w.Shares opened) (hlabel : w'.context.label = w.context.label)
    (hjoins : w'.context.joins = w.context.joins) : w'.Shares opened := by
  have hlabels : w'.context.labels = w.context.labels := by
    rw [Context.labels, hlabel, hjoins]
    rfl
  refine ⟨?_, ?_, ?_, ?_⟩
  · rw [hjoins]
    exact h.keyed
  · rw [hjoins, hlabels]
    exact h.owners
  · rw [hjoins]
    exact h.shared
  · rw [hjoins, hlabel]
    exact h.opened

/-- A join is made that no other serves for. -/
theorem Shares.addJoin (h : w.Shares opened) (hf : w.Fresh) {spec : JoinSpec} (hspec : spec.Keyed)
    (hnew : ∀ j ∈ w.context.joins, j.serves w.context.label spec = false)
    (on : List (Expr Placeholder)) (aliases : Aliases) :
    Work.Shares ⟨w.context.addJoin spec w.aliases.next.1 on, aliases, w.dropped⟩ opened := by
  have hold : w.context.labels ⊆ (w.context.addJoin spec w.aliases.next.1 on).labels :=
    List.cons_subset_cons _ (List.map_subset _ (List.subset_append_left _ _))
  have hlabel : w.aliases.next.1 ∉ w.context.labels := hf.new _ (Nat.le_refl _)
  refine ⟨?_, ?_, ?_, ?_⟩
  · refine List.forall_mem_append.mpr ⟨h.keyed, List.forall_mem_singleton.mpr fun s hs => ?_⟩
    cases hs
    exact hspec
  · refine List.forall_mem_append.mpr ⟨fun j hj => hold (h.owners j hj), ?_⟩
    exact List.forall_mem_singleton.mpr List.mem_cons_self
  · refine List.pairwise_append.mpr ⟨h.shared, List.pairwise_singleton _ _, fun j hj k hk => ?_⟩
    rw [List.mem_singleton.mp hk]
    exact hnew j hj
  · -- nothing was made from the new row yet, and the new join comes from no join's row
    intro k hk howner j hj hfrom
    rcases List.mem_append.mp hk with hk | hk <;> rcases List.mem_append.mp hj with hj | hj
    · exact h.opened k hk howner j hj hfrom
    · rw [List.mem_singleton.mp hj] at hfrom
      exact absurd hfrom (hf.label_ne hk)
    · rw [List.mem_singleton.mp hk] at hfrom
      have hmem := h.owners j hj
      rw [hfrom] at hmem
      exact absurd hmem hlabel
    · rw [List.mem_singleton.mp hk, List.mem_singleton.mp hj] at hfrom
      have hmem : w.context.label ∈ w.context.labels := List.mem_cons_self
      rw [show w.context.label = w.aliases.next.1 from hfrom] at hmem
      exact absurd hmem hlabel

/-- Nothing was made from the row of a join that stands for something not opened yet. -/
theorem Shares.owner_ne (h : w.Shares done) {j : OwnedJoin} (hj : j ∈ w.context.joins)
    {spec : JoinSpec} (hspec : j.StandsFor w.context.label spec)
    (hdone : ∀ s ∈ done, s.same spec = false) : ∀ i ∈ w.context.joins, i.owner ≠ j.join.label := by
  intro i hi howner
  obtain ⟨s, hs, hstands⟩ := h.opened j hj hspec.1 i hi howner
  have hsame := hstands.same (h.keyed j hj) hspec
  rw [hdone s hs] at hsame
  cases hsame

section nested

variable {j : OwnedJoin} {table : NamedTable}
  (hg : Work.Grows ⟨w.context.child table j.join.label, w.aliases, w.dropped⟩ wc)

include hg

/-- The joins of a context over the row of `j` have new aliases. -/
theorem Fresh.not_mem_of_nested (hf : w.Fresh) :
    ∀ l ∈ OwnedJoin.labels wc.context.joins, l ∉ w.context.labels := by
  obtain ⟨more, hmore, hn⟩ := hg.joins
  rw [show wc.context.joins = more from hmore]
  exact hf.not_mem_of_numbered hn

/-- They are owned by that row or by one of the new ones. -/
theorem Shares.owner_of_nested (hc : wc.Shares opened) {i : OwnedJoin}
    (hi : i ∈ wc.context.joins) :
    i.owner = j.join.label ∨ i.owner ∈ OwnedJoin.labels wc.context.joins := by
  have hmem := hc.owners i hi
  rw [Context.labels, hg.place.label] at hmem
  exact List.mem_cons.mp hmem

/-- Of the rows that are not new only that of `j` owns any. -/
theorem Shares.owner_eq_of_nested (hf : w.Fresh) (hc : wc.Shares opened) {i : OwnedJoin}
    (hi : i ∈ wc.context.joins) (hknown : i.owner ∈ w.context.labels) : i.owner = j.join.label :=
  (hc.owner_of_nested hg hi).resolve_right fun hl => hf.not_mem_of_nested hg _ hl hknown

/-- A context over the row of a join, from which nothing was made before, is folded back. -/
theorem Shares.folded (h : w.Shares done) (hf : w.Fresh) (hj : j ∈ w.context.joins)
    {spec : JoinSpec} (hspec : j.StandsFor w.context.label spec)
    (hdone : ∀ s ∈ done, s.same spec = false) (hc : wc.Shares opened) (name : String) :
    Work.Shares { wc with context := w.context.folded wc.context name } (done ++ [spec]) := by
  obtain ⟨added, hjoins, hsub, -⟩ := Context.mergeJoins_eq_append w.context.joins wc.context.joins
  have hmerged : (w.context.folded wc.context name).joins = w.context.joins ++ added := hjoins
  have hknown : ∀ i ∈ added, i.owner ∈ w.context.labels → i.owner = j.join.label :=
    fun i hi => hc.owner_eq_of_nested hg hf (hsub.subset hi)
  refine ⟨?_, ?_, ?_, ?_⟩
  · rw [hmerged]
    exact List.forall_mem_append.mpr ⟨h.keyed, fun i hi => hc.keyed i (hsub.subset hi)⟩
  · obtain ⟨hold, hnew⟩ := Context.labels_subset_mergeJoins w.context.joins wc.context.joins
    rw [hmerged]
    refine List.forall_mem_append.mpr ⟨fun i hi => ?_, fun i hi => ?_⟩
    · exact List.cons_subset_cons _ hold (h.owners i hi)
    · refine List.mem_cons_of_mem _ ?_
      rcases hc.owner_of_nested hg (hsub.subset hi) with hi | hi
      · rw [hi]
        exact hold (List.mem_map_of_mem hj)
      · exact hnew hi
  · rw [hmerged]
    refine List.pairwise_append.mpr ⟨h.shared, hc.shared.sublist hsub, fun i hi k hk => ?_⟩
    refine OwnedJoin.repeats_of_owner_ne fun heq => h.owner_ne hj hspec hdone i hi ?_
    rw [heq]
    exact hknown k hk (heq ▸ h.owners i hi)
  · rw [hmerged]
    intro k hk hkowner i hi hfrom
    have hkold : k ∈ w.context.joins := by
      refine (List.mem_append.mp hk).resolve_right fun hk => ?_
      have hmem : k.owner ∈ w.context.labels := by
        rw [hkowner]
        exact List.mem_cons_self
      exact hf.label_ne hj (hkowner.symm.trans (hknown k hk hmem))
    rcases List.mem_append.mp hi with hi | hi
    · obtain ⟨s, hs, hstands⟩ := h.opened k hkold hkowner i hi hfrom
      exact ⟨s, List.mem_append_left _ hs, hstands⟩
    · -- the row is that of `j`, as aliases are different
      have hmem : i.owner ∈ w.context.labels := by
        rw [hfrom]
        exact List.mem_cons_of_mem _ (List.mem_map_of_mem hkold)
      have hlabel : k.join.label = j.join.label := hfrom.symm.trans (hknown i hi hmem)
      obtain rfl : k = j := hf.eq_of_label hkold hj hlabel
      exact ⟨spec, List.mem_append_right _ (List.mem_singleton_self _), hspec⟩

end nested

/-- What runs make is shared. -/
theorem Runs.shares (h : w.Runs JoinSpec.Keyed JoinSpec.Different opened w') (hf : w.Fresh)
    (hs : w.Shares done) (hopened : JoinSpec.Different (done ++ opened)) :
    w'.Shares (done ++ opened) := by
  induction h generalizing done with
  | binds h =>
      rw [List.append_nil]
      exact hs.congr h.place.label h.joins
  | drops w d =>
      rw [List.append_nil]
      exact hs.congr rfl rfl
  | row w =>
      rw [List.append_nil]
      exact hs.congr rfl rfl
  | column w name =>
      rw [List.append_nil]
      exact hs.congr rfl rfl
  | named w name he =>
      rw [List.append_nil]
      exact hs.congr rfl rfl
  | @join w w₁ spec on hspec hnew hb hon =>
      rw [List.append_nil]
      refine (hs.addJoin hf hspec hnew on w₁.aliases).congr hb.place.label ?_
      show w₁.context.joins ++ _ = w.context.joins ++ _
      rw [hb.joins, hb.place.label]
  | @plain w wc j table name hj h hplain ih =>
      rw [List.append_nil]
      refine hs.congr rfl ?_
      show Context.mergeJoins w.context.joins wc.context.joins = _
      rw [hplain]
      rfl
  | @fold w wc j spec inner table name hj hspec h hinner ih =>
      have hdone : ∀ s ∈ done, s.same spec = false := fun s hs =>
        (List.pairwise_append.mp hopened).2.2 s hs spec (List.mem_singleton_self _)
      have hchild : wc.Shares ([] ++ inner) :=
        ih (hf.child hj table) (shares_child w table j.join.label) hinner
      exact hs.folded h.grows hf hj hspec hdone hchild name
  | trans h h' ih ih' =>
      rw [← List.append_assoc] at hopened ⊢
      have hfirst := (List.pairwise_append.mp hopened).1
      exact ih' (hf.grows h.grows) (ih hf hs hfirst) hopened

end Work

/-! ### Requests -/

namespace Request

/-- The joins that a request makes, in order, with their owners. -/
def joins (env : Env) (r : Request) (aliases : Aliases) : Except QueryError (List OwnedJoin) := do
  let f ← env.metadata.lookupFragment r.fragment
  let table ← env.metadata.lookupTable f.table
  match compileIn env r table (r.start env table aliases) with
  | .ok _ w => .ok w.context.joins
  | .error e _ => .error e

variable {env : Env} {r : Request} {table : NamedTable} {aliases : Aliases}

theorem joins_eq_ok {f : Fragment} (hf : env.metadata.lookupFragment r.fragment = .ok f)
    (ht : env.metadata.lookupTable f.table = .ok table) {s : Select Placeholder} {w : Work}
    (hrun : compileIn env r table (r.start env table aliases) = .ok s w) :
    r.joins env aliases = .ok w.context.joins := by
  simp only [joins, hf, ht, hrun, Bind.bind, Except.bind]

theorem fresh_begun (env : Env) (r : Request) (h : aliases.Clear (rootAlias table.name)) :
    (r.begun env table aliases).Fresh := by
  have hlabels : (r.begun env table aliases).context.labels =
      [rootAlias table.name, currentUserAlias] := rfl
  refine ⟨h.inj, ?_, fun n _ => ?_⟩
  · rw [hlabels]
    simp [rootAlias_ne_currentUserAlias table.name]
  · rw [hlabels, List.mem_pair, not_or]
    exact ⟨h.root n, h.user n⟩

theorem shares_begun (env : Env) (r : Request) (table : NamedTable) (aliases : Aliases) :
    (r.begun env table aliases).Shares [] := by
  refine ⟨?_, ?_, List.pairwise_singleton _ _, ?_⟩
  · exact List.forall_mem_singleton.mpr fun s hs => by cases hs
  · exact List.forall_mem_singleton.mpr List.mem_cons_self
  · refine List.forall_mem_singleton.mpr fun _ => List.forall_mem_singleton.mpr fun hfrom => ?_
    exact absurd hfrom (rootAlias_ne_currentUserAlias table.name)

/-- The joins of a select statement are those that were made while its fragment was compiled. -/
theorem joins_of_compile {S : JoinSpec → Prop} {P : List JoinSpec → Prop}
    (hP : Compile.Admits S P env) {q : Query} (h : r.compile env aliases = .ok q) :
    ∃ f table w, env.metadata.lookupFragment r.fragment = .ok f ∧
      env.metadata.lookupTable f.table = .ok table ∧
      (r.begun env table aliases).Runs S P (f.opens env.user table.table) w ∧
      r.joins env aliases = .ok w.context.joins ∧
      q.select.joins = w.context.joins.map OwnedJoin.join := by
  obtain ⟨f, table, w, w', hf, ht, hrun, hjoins, hruns, hcompletes⟩ := compile_runs hP h
  have hmade := joins_eq_ok hf ht hrun
  rw [hjoins] at hmade
  exact ⟨f, table, w, hf, ht, hruns, hmade, hcompletes.joins⟩

/-- **Joins are shared.**  If no fragment goes on from two relations with equal joins, a request
makes no join twice for the same row. -/
theorem compile_shared
    (hadmits : Compile.Admits JoinSpec.Keyed JoinSpec.Different env) {q : Query}
    (h : r.compile env .sequential = .ok q) :
    ∃ joins, r.joins env .sequential = .ok joins ∧ q.select.joins = joins.map OwnedJoin.join ∧
      OwnedJoin.Shared joins := by
  obtain ⟨f, table, w, hf, ht, hruns, hjoins, hselect⟩ := joins_of_compile hadmits h
  obtain ⟨-, htable⟩ := lookupTable_ok ht
  have hopened := hadmits.opens _ f _ (lookupFragment_ok hf) htable
  have hfresh := fresh_begun env r (Aliases.clear_sequential table.name)
  have hshares := hruns.shares hfresh (shares_begun env r table .sequential) hopened
  exact ⟨w.context.joins, hjoins, hselect, hshares.shared⟩

end Request

namespace Sample

/-- The row of a table that a column refers to. -/
def reference (table column : String) : Field :=
  ⟨.relation ⟨table, .left, [(primaryKey, .column column)]⟩, []⟩

/-- Posts that have an author and someone else, who is named by the column `other`.  Members belong
to a team. -/
def club (other : String) : Metadata where
  tables := [
    ("Posts", ⟨[("_id", textColumn), ("authorId", textColumn), ("editorId", textColumn),
      ("author", reference "Users" "authorId"), ("other", reference "Users" other)], []⟩),
    ("Teams", ⟨[("_id", textColumn)], []⟩),
    ("Users", ⟨[("_id", textColumn), ("teamId", textColumn),
      ("team", reference "Teams" "teamId")], []⟩)]
  fragments := [("Member", ⟨"Users", [.field "team"]⟩),
    ("Post", ⟨"Posts", [.nested "author" "Member", .nested "other" "Member"]⟩)]

def clubEnv (other : String) : Env := ⟨club other, .default, none⟩

def clubRequest : Request := ⟨"Post", .filter [], [], none, none, none, []⟩

theorem keyed_reference (table column : String) :
    (reference table column).kind.EveryJoin JoinSpec.Keyed :=
  ⟨List.nodup_singleton _, List.forall_mem_singleton.mpr trivial⟩

/-- The author and the editor of a post are found by different joins. -/
theorem admits_club : Compile.Admits JoinSpec.Keyed JoinSpec.Different (clubEnv "editorId") := by
  have hjoins : ∀ t ∈ (club "editorId").tables, ∀ f ∈ t.2.fields,
      f.2.kind.EveryJoin JoinSpec.Keyed := by
    have htext : textColumn.kind.EveryJoin JoinSpec.Keyed := trivial
    simp only [club, List.forall_mem_cons, htext, keyed_reference, List.not_mem_nil,
      false_imp_iff, implies_true, and_self]
  have hopens : ∀ f ∈ (club "editorId").fragments, ∀ t ∈ (club "editorId").tables,
      t.1 = f.2.table → JoinSpec.Different (f.2.opens none t.2) := by
    decide
  refine ⟨fun name t ht field f hfield => ?_, fun name f t hf ht => ?_⟩
  · exact hjoins _ (Entries.mem_of_get? ht) _ (Entries.mem_of_get? hfield)
  · exact hopens _ (Entries.mem_of_get? hf) _ (Entries.mem_of_get? ht) rfl

end Sample

namespace Request

/-- Two members of a team: their teams are joined once for each. -/
theorem compile_shared_sample :
    ∃ q joins, Sample.clubRequest.compile (Sample.clubEnv "editorId") .sequential = .ok q ∧
      Sample.clubRequest.joins (Sample.clubEnv "editorId") .sequential = .ok joins ∧
      q.select.joins = joins.map OwnedJoin.join ∧ joins.length = 5 ∧ OwnedJoin.Shared joins := by
  have hrun : (Sample.clubRequest.compile (Sample.clubEnv "editorId") .sequential).toOption.map
      (fun q => q.select.joins.length) = some 5 := by decide +kernel
  obtain ⟨q, hq, hlength⟩ := Sample.exists_ok_of_map hrun
  obtain ⟨joins, hjoins, hselect, hshared⟩ := compile_shared Sample.admits_club hq
  refine ⟨q, joins, hq, hjoins, hselect, ?_, hshared⟩
  rw [hselect, List.length_map] at hlength
  exact hlength

/-- **A join may be made twice.**  A post's author is shown under two names, each time with the
team, and the team is joined twice from the same row. -/
theorem compile_repeats_join :
    ∃ q joins, Sample.clubRequest.compile (Sample.clubEnv "authorId") .sequential = .ok q ∧
      Sample.clubRequest.joins (Sample.clubEnv "authorId") .sequential = .ok joins ∧
      q.select.joins = joins.map OwnedJoin.join ∧ ¬ OwnedJoin.Shared joins := by
  have hrun : (Sample.clubRequest.compile (Sample.clubEnv "authorId") .sequential).toOption.map
      (fun _ => ()) = some () := by decide +kernel
  have hrepeats : (Sample.clubRequest.joins (Sample.clubEnv "authorId") .sequential).toOption.map
      (fun joins => decide (OwnedJoin.Shared joins)) = some false := by decide +kernel
  obtain ⟨q, hq, -⟩ := Sample.exists_ok_of_map hrun
  obtain ⟨joins, hjoins, hshared⟩ := Sample.exists_ok_of_map hrepeats
  obtain ⟨f, table, w, -, -, -, hjoins', hselect⟩ :=
    joins_of_compile (Compile.admits_true (Sample.clubEnv "authorId")) hq
  obtain rfl : joins = w.context.joins := Except.ok.inj (hjoins.symm.trans hjoins')
  exact ⟨q, _, hq, hjoins, hselect, of_decide_eq_false hshared⟩

end Request

end ShapedQuery
