import KeyedColumns.Proofs.Changes

/-!
# What changes preserve

Every change of a deduplicating collection keeps it deduplicated, even if the keys of its members have
changed meanwhile, and keeps it faithful if they have not. Appending keeps a lenient one whole.
-/

namespace KeyedColumns

namespace Dedupe

/-- Whether an entry stays when an item comes in the place of those that its key and name find. -/
def stays (column : ItemId → Column) (c : Contents) (i : ItemId) (e : Entry) : Bool :=
  !(some e.item = (displaced column c i).1 || some e.item = (displaced column c i).2)

theorem before_eq (column : ItemId → Column) (c : Contents) (i : ItemId) :
    before column c i = c.entries.takeWhile (stays column c i) := rfl

theorem after_eq (column : ItemId → Column) (c : Contents) (i : ItemId) :
    after column c i = (c.entries.dropWhile (stays column c i)).filter (stays column c i) := rfl

end Dedupe

namespace Contents

variable {c : Contents} {column : ItemId → Column} {known : ItemId → Prop}

/-! ## Appending -/

theorem Deduplicated.append (hc : c.Deduplicated) {k : String} {i : ItemId} (hk : k ≠ "")
    (hf : c.find? k = none) : (c.append ⟨k, i⟩).Deduplicated where
  toCoherent := hc.toCoherent.append _
  keys_nodup := by
    rw [entries_append, List.map_append, List.map_singleton, List.nodup_append]
    refine ⟨hc.keys_nodup, List.nodup_singleton _, ?_⟩
    intro a ha b hb hab
    rw [List.mem_singleton] at hb
    obtain ⟨e, he, rfl⟩ := List.mem_map.mp ha
    exact hc.not_mem_keys hf e he (hab.trans hb)
  key_ne := by
    intro e he
    rw [entries_append, List.mem_append, List.mem_singleton] at he
    rcases he with he | rfl
    · exact hc.key_ne e he
    · exact hk

theorem Faithful.append (hc : c.Faithful column) {i : ItemId} (hk : (column i).key ≠ "")
    (hf : c.find? (column i).key = none) :
    (c.append ⟨(column i).key, i⟩).Faithful column where
  toDeduplicated := hc.toDeduplicated.append hk hf
  own_key := by
    intro e he
    rw [entries_append, List.mem_append, List.mem_singleton] at he
    rcases he with he | rfl
    · exact hc.own_key e he
    · rfl
  members_nodup := by
    rw [members_append, List.nodup_append]
    refine ⟨hc.members_nodup, List.nodup_singleton _, ?_⟩
    intro a ha b hb hab
    rw [List.mem_singleton] at hb
    obtain ⟨e, he, rfl⟩ := mem_members.mp ha
    refine hc.not_mem_keys hf e he ?_
    rw [hc.own_key e he, hab, hb]
  present := by
    intro j hj
    rw [members_append, List.mem_append, List.mem_singleton] at hj
    rw [mem_active_append]
    rcases hj with hj | rfl
    · exact Or.inr (hc.present j hj)
    · exact Or.inl rfl

/-! ## Taking the place of an item -/

theorem entries_takePlace {p : Nat} {old new : ItemId} {key : String}
    (hp : c.entries[p]? = some ⟨key, old⟩) :
    (Dedupe.takePlace c p old new key).entries = c.entries.set p ⟨key, new⟩ := by
  show c.entries.modify p _ = _
  rw [List.modify_eq_set_getElem?, hp]
  rfl

theorem members_takePlace {p : Nat} {old new : ItemId} {key : String}
    (hp : c.entries[p]? = some ⟨key, old⟩) :
    (Dedupe.takePlace c p old new key).members = c.members.set p new := by
  unfold members
  rw [entries_takePlace hp, List.map_set]

theorem mem_active_takePlace {p : Nat} {old new : ItemId} {key : String} {i : ItemId} :
    i ∈ (Dedupe.takePlace c p old new key).active ↔ new = i ∨ old ≠ i ∧ i ∈ c.active := by
  unfold Dedupe.takePlace
  rw [ActiveSet.mem_insert, ActiveSet.mem_erase]

theorem keys_takePlace {p : Nat} {old new : ItemId} {key : String}
    (hp : c.entries[p]? = some ⟨key, old⟩) :
    (Dedupe.takePlace c p old new key).entries.map (·.key) = c.entries.map (·.key) := by
  rw [entries_takePlace hp, KeyIndex.keys_set hp]

theorem mem_set_of_ne {l : List ItemId} {p : Nat} {old new i : ItemId} (hp : l[p]? = some old)
    (hne : old ≠ i) (hi : i ∈ l) : i ∈ l.set p new := by
  obtain ⟨q, hq⟩ := List.mem_iff_getElem?.mp hi
  have hpq : p ≠ q := by
    intro e
    subst e
    exact hne (Option.some.inj (hp.symm.trans hq))
  refine List.mem_iff_getElem?.mpr ⟨q, ?_⟩
  rw [List.getElem?_set_ne hpq]
  exact hq

theorem Deduplicated.takePlace (hc : c.Deduplicated) {p : Nat} {old new : ItemId} {key : String}
    (hp : c.entries[p]? = some ⟨key, old⟩) : (Dedupe.takePlace c p old new key).Deduplicated where
  index := by
    rw [entries_takePlace hp, KeyIndex.ofEntries_set hc.keys_nodup hp, ← hc.index]
    rfl
  active := by
    intro i hi
    have hmem : c.members[p]? = some old := by unfold members; rw [List.getElem?_map, hp]; rfl
    rw [members_takePlace hp]
    rcases mem_active_takePlace.mp hi with rfl | ⟨hne, hi⟩
    · exact List.mem_set (List.getElem?_eq_some_iff.mp hmem).1 new
    · exact mem_set_of_ne hmem hne (hc.active i hi)
  keys_nodup := by
    rw [keys_takePlace hp]
    exact hc.keys_nodup
  key_ne := by
    intro e he
    rw [entries_takePlace hp] at he
    rcases List.mem_or_eq_of_mem_set he with he | rfl
    · exact hc.key_ne e he
    · have hk := hc.key_ne _ (List.mem_of_getElem? hp)
      exact hk

theorem Faithful.takePlace (hc : c.Faithful column) {p : Nat} {old new : ItemId}
    (hp : c.entries[p]? = some ⟨(column new).key, old⟩) :
    (Dedupe.takePlace c p old new (column new).key).Faithful column := by
  have hd : (Dedupe.takePlace c p old new (column new).key).Deduplicated :=
    hc.toDeduplicated.takePlace hp
  have own : ∀ e ∈ (Dedupe.takePlace c p old new (column new).key).entries,
      e.key = (column e.item).key := by
    intro e he
    rw [entries_takePlace hp] at he
    rcases List.mem_or_eq_of_mem_set he with he | rfl
    · exact hc.own_key e he
    · rfl
  refine ⟨hd, own, members_nodup_of_own_key hd.keys_nodup own, ?_⟩
  intro i hi
  have hmem : c.members[p]? = some old := by unfold members; rw [List.getElem?_map, hp]; rfl
  have hlt := (List.getElem?_eq_some_iff.mp hmem).1
  rw [members_takePlace hp] at hi
  rw [mem_active_takePlace]
  obtain ⟨q, hq⟩ := List.mem_iff_getElem?.mp hi
  by_cases hpq : p = q
  · subst hpq
    rw [List.getElem?_set_self hlt] at hq
    exact Or.inl (Option.some.inj hq)
  · -- The old item stood at `p` only, so what stands elsewhere is another item.
    rw [List.getElem?_set_ne hpq] at hq
    refine Or.inr ⟨?_, hc.present i (List.mem_of_getElem? hq)⟩
    intro hold
    subst hold
    exact hpq ((List.getElem?_inj hlt hc.members_nodup).mp (hmem.trans hq.symm))

/-! ## Supplanting -/

theorem kept_sublist (i : ItemId) :
    (Dedupe.before column c i ++ Dedupe.after column c i).Sublist c.entries := by
  rw [Dedupe.before_eq, Dedupe.after_eq]
  refine (List.Sublist.append (List.Sublist.refl _) List.filter_sublist).trans ?_
  rw [List.takeWhile_append_dropWhile]

theorem kept_stays {i : ItemId} {e : Entry}
    (he : e ∈ Dedupe.before column c i ++ Dedupe.after column c i) :
    some e.item ≠ c.find? (column i).key := by
  rw [Dedupe.before_eq, Dedupe.after_eq] at he
  have hstays : Dedupe.stays column c i e = true := by
    rcases List.mem_append.mp he with he | he
    · exact List.all_eq_true.mp List.all_takeWhile e he
    · exact (List.mem_filter.mp he).2
  intro h
  simp [Dedupe.stays, Dedupe.displaced, h] at hstays

theorem Deduplicated.kept_keys_ne (hc : c.Deduplicated) {i : ItemId} {e : Entry}
    (he : e ∈ Dedupe.before column c i ++ Dedupe.after column c i) :
    e.key ≠ (column i).key := by
  intro hk
  refine kept_stays he (hc.find?_iff.mpr ?_).symm
  rw [← hk]
  exact (kept_sublist i).mem he

theorem mem_supplanted {i : ItemId} {e : Entry} :
    e ∈ Dedupe.before column c i ++ ⟨(column i).key, i⟩ :: Dedupe.after column c i ↔
      e = ⟨(column i).key, i⟩ ∨ e ∈ Dedupe.before column c i ++ Dedupe.after column c i := by
  simp only [List.mem_append, List.mem_cons]
  exact or_left_comm

theorem Deduplicated.supplanted_keys (hc : c.Deduplicated) (i : ItemId) :
    ((Dedupe.before column c i ++ ⟨(column i).key, i⟩ :: Dedupe.after column c i).map
      (·.key)).Nodup := by
  have hperm : (Dedupe.before column c i ++ ⟨(column i).key, i⟩ :: Dedupe.after column c i).Perm
      (⟨(column i).key, i⟩ :: (Dedupe.before column c i ++ Dedupe.after column c i)) :=
    List.perm_middle
  rw [(hperm.map (·.key)).nodup_iff, List.map_cons, List.nodup_cons]
  refine ⟨?_, hc.keys_nodup.sublist ((kept_sublist i).map _)⟩
  intro hm
  obtain ⟨e, he, hk⟩ := List.mem_map.mp hm
  exact hc.kept_keys_ne he hk

theorem Deduplicated.supplanted_key_ne (hc : c.Deduplicated) {i : ItemId}
    (hk : (column i).key ≠ "") :
    ∀ e ∈ Dedupe.before column c i ++ ⟨(column i).key, i⟩ :: Dedupe.after column c i,
      e.key ≠ "" := by
  intro e he
  rcases mem_supplanted.mp he with rfl | he
  · exact hk
  · exact hc.key_ne e ((kept_sublist i).mem he)

/-! ## Any change -/

theorem Deduplicated.change {d : Contents} (h : Dedupe.Change column known c d)
    (hc : c.Deduplicated) : d.Deduplicated := by
  cases h with
  | append i _ hk hf => exact hc.append hk hf
  | takePlace i old p _ _ hf hp =>
    obtain ⟨q, hq, hqe⟩ := hc.position_of_find? hf
    rw [hp] at hq
    cases hq
    exact hc.takePlace hqe
  | supplant i _ hk => exact deduplicated_reindex (hc.supplanted_keys i) (hc.supplanted_key_ne hk)
  | remove i _ =>
    have hsub := List.eraseIdx_sublist c.entries (c.entries.findIdx (·.item = i))
    exact deduplicated_reindex (hc.keys_nodup.sublist (hsub.map _)) fun e he =>
      hc.key_ne e (hsub.mem he)

theorem Faithful.change {d : Contents} (h : Dedupe.Change column known c d)
    (hc : c.Faithful column) : d.Faithful column := by
  cases h with
  | append i _ hk hf => exact hc.append hk hf
  | takePlace i old p _ _ hf hp =>
    obtain ⟨q, hq, hqe⟩ := hc.position_of_find? hf
    rw [hp] at hq
    cases hq
    exact hc.takePlace hqe
  | supplant i _ hk =>
    refine faithful_reindex (hc.supplanted_keys i) (hc.supplanted_key_ne hk) fun e he => ?_
    rcases mem_supplanted.mp he with rfl | he
    · rfl
    · exact hc.own_key e ((kept_sublist i).mem he)
  | remove i _ =>
    have hsub := List.eraseIdx_sublist c.entries (c.entries.findIdx (·.item = i))
    exact faithful_reindex (hc.keys_nodup.sublist (hsub.map _))
      (fun e he => hc.key_ne e (hsub.mem he)) fun e he => hc.own_key e (hsub.mem he)

theorem members_change {d : Contents} (h : Dedupe.Change column known c d) (hc : c.Deduplicated) :
    ∀ i ∈ d.members, i ∈ c.members ∨ known i := by
  intro j hj
  cases h with
  | append i hi _ _ =>
    rw [members_append, List.mem_append, List.mem_singleton] at hj
    rcases hj with hj | rfl
    · exact Or.inl hj
    · exact Or.inr hi
  | takePlace i old p hi _ hf hp =>
    obtain ⟨q, hq, hqe⟩ := hc.position_of_find? hf
    rw [hp] at hq
    cases hq
    rw [members_takePlace hqe] at hj
    rcases List.mem_or_eq_of_mem_set hj with hj | rfl
    · exact Or.inl hj
    · exact Or.inr hi
  | supplant i hi _ =>
    obtain ⟨e, he, rfl⟩ := mem_members.mp hj
    rcases mem_supplanted.mp he with rfl | he
    · exact Or.inr hi
    · exact Or.inl (mem_members.mpr ⟨e, (kept_sublist i).mem he, rfl⟩)
  | remove i _ =>
    obtain ⟨e, he, rfl⟩ := mem_members.mp hj
    exact Or.inl (mem_members.mpr ⟨e, List.mem_of_mem_eraseIdx he, rfl⟩)

end Contents

end KeyedColumns
