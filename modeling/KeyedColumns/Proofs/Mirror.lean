import KeyedColumns.Proofs.Equivariance
import KeyedColumns.Proofs.Sharing

/-!
# Two groups of collections that behave alike

Two registries mirror each other if they know the same columns under other items, and hold pairs of
collections with the same contents under other items, shared alike. Whatever is asked of the one
group and, with the other items, of the other group, the answers are the same and the registries go
on mirroring each other.
-/

namespace KeyedColumns

/-! ## Uses -/

/-- Something that is asked of a group of collections, which go by their places in the group. -/
inductive Use (κ : Type) where
  | call (place : κ) (call : Call) (mode : Mode)
  /-- Any question but how a collection logs. -/
  | ask (place : κ) (query : Query) (h : query ≠ .context)
  | compare (first second : κ)
  | setKey (item : ItemId) (key : String)
  /-- Goes over the items; at each index the uses listed for it are made. -/
  | iterate (place : κ) (body : List (Nat × List (Use κ)))

/-- The question with other items. -/
def Query.rename (φ : Equiv.Perm ItemId) : Query → Query
  | get key fallback => get key (fallback.map φ)
  | containsColumn item => containsColumn (item.map φ)
  | query => query

namespace Use

variable {κ : Type}

mutual

/-- The request that a use is, if the group stands in these slots and items go by other names. -/
def request (slot : κ → String) (φ : Equiv.Perm ItemId) : Use κ → Request
  | .call k c mode => .act (.call (slot k) (c.rename φ) mode)
  | .ask k query _ => .act (.ask (slot k) (query.rename φ))
  | .compare j k => .act (.compare (slot j) (slot k))
  | .setKey i key => .act (.setKey (φ i) key)
  | .iterate k body => .iterate (slot k) (bodyRequests slot φ body)

/-- The requests that some uses are. -/
def requests (slot : κ → String) (φ : Equiv.Perm ItemId) : List (Use κ) → List Request
  | [] => []
  | u :: rest => request slot φ u :: requests slot φ rest

/-- The requests that the body of an iteration makes. -/
def bodyRequests (slot : κ → String) (φ : Equiv.Perm ItemId) :
    List (Nat × List (Use κ)) → List (Nat × List Request)
  | [] => []
  | p :: rest => partRequests slot φ p :: bodyRequests slot φ rest

/-- The requests of one part of a body. -/
def partRequests (slot : κ → String) (φ : Equiv.Perm ItemId) :
    Nat × List (Use κ) → Nat × List Request
  | (n, us) => (n, requests slot φ us)

end

end Use

/-! ## Answers -/

def Value.rename (φ : Equiv.Perm ItemId) : Value → Value
  | item value => item (value.map φ)
  | items values => items (values.map φ)
  | entries values => entries (values.map (Entry.rename φ))
  | value => value

def Reply.rename (φ : Equiv.Perm ItemId) : Reply → Reply
  | coded result code => coded (result.rename φ) code
  | returned result => returned (result.rename φ)
  | raised failure => raised failure

def Outcome.rename (φ : Equiv.Perm ItemId) : Outcome → Outcome
  | value v => value (v.rename φ)
  | reply r => reply (r.rename φ)
  | visited items => visited (items.map φ)
  | outcome => outcome

/-- The second answer is the first with other items, also to what an iteration asked on the way. -/
inductive Answer.Mirrors (φ : Equiv.Perm ItemId) : Answer → Answer → Prop where
  | mk {a b : Answer} (outcome : b.outcome = a.outcome.rename φ)
    (inner : List.Forall₂ (Answer.Mirrors φ) a.inner b.inner) : Answer.Mirrors φ a b

/-! ## Registries -/

/-- The first slots of the pairs in `r` hold what the second ones in `r'` do, under other items. -/
structure Mirrored (φ : Equiv.Perm ItemId) (pairs : List (String × String)) (r r' : Registry) :
    Prop where
  reachable : Reachable r
  reachable' : Reachable r'
  knows : ∀ i, r'.catalogue.knows (φ i) = r.catalogue.knows i
  column : ∀ i, r'.catalogue.column (φ i) = r.catalogue.column i
  held : ∀ p ∈ pairs, ∃ c d, r.collection? p.1 = some c ∧ r'.collection? p.2 = some d ∧
    d.kind = c.kind ∧ r'.contents d = (r.contents c).rename φ
  shared : ∀ p ∈ pairs, ∀ q ∈ pairs, ∀ c c' d d', r.collection? p.1 = some c →
    r.collection? q.1 = some c' → r'.collection? p.2 = some d → r'.collection? q.2 = some d' →
    (d.handle = d'.handle ↔ c.handle = c'.handle)

/-- What comes of two requests: registries that mirror each other, and answers that do. -/
abbrev Follows (φ : Equiv.Perm ItemId) (pairs : List (String × String)) (x y : Registry × Answer) :
    Prop :=
  Mirrored φ pairs x.1 y.1 ∧ x.2.Mirrors φ y.2

/-- What comes of two lists of requests: registries that mirror each other, and answers that do. -/
abbrev FollowAll (φ : Equiv.Perm ItemId) (pairs : List (String × String))
    (x y : Registry × List Answer) : Prop :=
  Mirrored φ pairs x.1 y.1 ∧ List.Forall₂ (Answer.Mirrors φ) x.2 y.2

variable {φ : Equiv.Perm ItemId} {pairs : List (String × String)} {r r' : Registry}
  {p q : String × String}

theorem Registry.knows_map (hk : ∀ i, r'.catalogue.knows (φ i) = r.catalogue.knows i)
    (items : List ItemId) : r'.knows (items.map φ) = r.knows items := by
  simp [Registry.knows, List.all_map, Function.comp_def, hk]

theorem Registry.reply_rename {kind : Kind} {call : Call} {x y : Except Refusal (Done Result)}
    (h : Attempts φ (Result.rename φ) x y) (mode : Mode) :
    reply mode kind (call.rename φ) y = (reply mode kind call x).rename φ := by
  cases h with
  | error he =>
    cases mode <;>
      simp [reply, Mode.failure, he, Reply.rename, Call.neutral_rename, Call.operation_rename]
  | ok hd => cases mode <;> simp [reply, Mode.success, hd.value, Reply.rename, Call.silent_rename]

namespace Mirrored

theorem write (h : Mirrored φ pairs r r') (hp : p ∈ pairs) {c d : Collection}
    (hc : r.collection? p.1 = some c) (hd : r'.collection? p.2 = some d) {contents : Contents}
    (hr : Reachable (r.write c contents)) (hr' : Reachable (r'.write d (contents.rename φ))) :
    Mirrored φ pairs (r.write c contents) (r'.write d (contents.rename φ)) where
  reachable := hr
  reachable' := hr'
  knows := h.knows
  column := h.column
  held := by
    intro q hq
    obtain ⟨e, f, he, hf, hk, hcontents⟩ := h.held q hq
    refine ⟨e, f, he, hf, hk, ?_⟩
    have hshared := h.shared q hq p hp e c f d he hc hf hd
    rw [h.reachable.contents_write hc he, h.reachable'.contents_write hd hf]
    by_cases hsame : e.handle = c.handle
    · rw [if_pos hsame, if_pos (hshared.mpr hsame)]
    · rw [if_neg hsame, if_neg (fun hf => hsame (hshared.mp hf))]
      exact hcontents
  shared := h.shared

theorem act_call (h : Mirrored φ pairs r r') (hp : p ∈ pairs) (call : Call) (mode : Mode) :
    Follows φ pairs (r.act (.call p.1 call mode)) (r'.act (.call p.2 (call.rename φ) mode)) := by
  obtain ⟨c, d, hc, hd, hk, hcontents⟩ := h.held p hp
  have hr := h.reachable.act (.call p.1 call mode)
  have hr' := h.reachable'.act (.call p.2 (call.rename φ) mode)
  have hknows : r'.knows (call.rename φ).items = r.knows call.items := by
    rw [Call.items_rename]
    exact Registry.knows_map h.knows call.items
  have hattempt : Attempts φ (Result.rename φ) (r.attempt p.1 c call)
      (r'.attempt p.2 d (call.rename φ)) := by
    unfold Registry.attempt
    rw [hk, hcontents]
    exact Call.attempt_rename h.column c.kind (r.contents c) call
  simp only [Registry.act, hc, hd, hk, Call.isFor_rename, hknows] at hr hr' ⊢
  by_cases hok : (call.isFor c.kind && r.knows call.items) = true
  · simp only [hok, if_true, Registry.call_eq] at hr hr' ⊢
    have hafter : contentsAfter (r'.contents d) (r'.attempt p.2 d (call.rename φ)) =
        (contentsAfter (r.contents c) (r.attempt p.1 c call)).rename φ := by
      obtain ⟨u, v, hu, hv, huv⟩ | ⟨f, g, hf, hg, -⟩ := hattempt.cases
      · rw [hu, hv]
        exact huv.contents
      · rw [hf, hg]
        exact hcontents
    rw [hafter] at hr' ⊢
    rw [hk]
    exact ⟨h.write hp hc hd hr hr',
      .mk (congrArg Outcome.reply (Registry.reply_rename hattempt mode)) .nil⟩
  · simp only [hok] at hr hr' ⊢
    exact ⟨h, .mk rfl .nil⟩

theorem act_ask (h : Mirrored φ pairs r r') (hp : p ∈ pairs) {query : Query}
    (hq : query ≠ .context) :
    Follows φ pairs (r.act (.ask p.1 query)) (r'.act (.ask p.2 (query.rename φ))) := by
  obtain ⟨c, d, hc, hd, hk, hcontents⟩ := h.held p hp
  have hknows : r'.knows (query.rename φ).namedItems = r.knows query.namedItems := by
    rw [← Registry.knows_map h.knows]
    congr 1
    cases query with
    | get key item | containsColumn item => cases item <;> rfl
    | _ => rfl
  have hvalue : r'.ask d (query.rename φ) = (r.ask c query).rename φ := by
    cases query with
    | context => exact absurd rfl hq
    | get key fallback =>
      simp only [Registry.ask, Query.rename, hcontents, Contents.find?_rename, Value.rename]
      cases (r.contents c).find? key <;> rfl
    | containsColumn item =>
      simp only [Registry.ask, Query.rename, hcontents, Value.rename]
      cases item <;> simp [Contents.rename]
    | _ => simp [Registry.ask, Query.rename, hcontents, Value.rename, Registry.print, hk]
  simp only [Registry.act, hc, hd, hknows]
  split
  · exact ⟨h, .mk (congrArg Outcome.value hvalue) .nil⟩
  · exact ⟨h, .mk rfl .nil⟩

theorem act_compare (h : Mirrored φ pairs r r') (hp : p ∈ pairs) (hq : q ∈ pairs) :
    Follows φ pairs (r.act (.compare p.1 q.1)) (r'.act (.compare p.2 q.2)) := by
  obtain ⟨c, d, hc, hd, -, hcontents⟩ := h.held p hp
  obtain ⟨c', d', hc', hd', -, hcontents'⟩ := h.held q hq
  have hagree : r'.agree d d' = r.agree c c' := by
    unfold Registry.agree
    rw [hcontents, hcontents']
    exact Contents.agree_rename φ _ _
  have hshares : Registry.shares d d' = Registry.shares c c' := by
    unfold Registry.shares
    simp only [h.shared p hp q hq c c' d d' hc hc' hd hd']
  simp only [Registry.act, hc, hc', hd, hd', hagree, hshares]
  exact ⟨h, .mk rfl .nil⟩

theorem act_setKey (h : Mirrored φ pairs r r') (i : ItemId) (key : String) :
    Follows φ pairs (r.act (.setKey i key)) (r'.act (.setKey (φ i) key)) := by
  have hr := h.reachable.act (.setKey i key)
  have hr' := h.reachable'.act (.setKey (φ i) key)
  simp only [Registry.act, h.knows] at hr hr' ⊢
  by_cases hi : r.catalogue.knows i = true
  · simp only [hi, if_true] at hr hr' ⊢
    refine ⟨⟨hr, hr', ?_, ?_, h.held, h.shared⟩, .mk rfl .nil⟩
    · intro j
      rw [Bool.eq_iff_iff, Catalogue.knows_setKey, Catalogue.knows_setKey, h.knows,
        φ.injective.eq_iff]
    · intro j
      simp only [Catalogue.column_setKey, h.column, φ.injective.eq_iff]
  · simp only [hi] at hr hr' ⊢
    exact ⟨h, .mk rfl .nil⟩

end Mirrored

/-! ## Iteration -/

/-- The second iterator is at the same place of a snapshot of the other items. -/
structure Iterator.Mirrors (φ : Equiv.Perm ItemId) (it it' : Iterator) : Prop where
  index : it'.index = it.index
  items : it'.snapshot.map (·.items) = it.snapshot.map fun s => s.items.map φ

namespace Iterator.Mirrors

variable {it it' : Iterator}

theorem next (h : it.Mirrors φ it') : it.next.Mirrors φ it'.next :=
  ⟨congrArg (· + 1) h.index, h.items⟩

theorem cases (h : it.Mirrors φ it') : (it.snapshot = none ∧ it'.snapshot = none) ∨
    ∃ s s', it.snapshot = some s ∧ it'.snapshot = some s' ∧ s'.items = s.items.map φ := by
  have hitems := h.items
  cases hs : it.snapshot <;> cases hs' : it'.snapshot <;> simp_all

theorem same_past (h : it.Mirrors φ it') : it'.same .past = it.same .past := by
  have hend : it'.atEnd = it.atEnd := by
    unfold atEnd
    obtain ⟨hs, hs'⟩ | ⟨s, s', hs, hs', hitems⟩ := h.cases
    · rw [hs, hs']
    · simp [hs, hs', h.index, hitems]
  have hpast : Iterator.past.atEnd = true := rfl
  simp [same, hend, hpast]

theorem item? (h : it.Mirrors φ it') : it'.item? = it.item?.map φ := by
  unfold Iterator.item?
  obtain ⟨hs, hs'⟩ | ⟨s, s', hs, hs', hitems⟩ := h.cases
  · simp [hs, hs']
  · simp [hs, hs', hitems, h.index]

theorem remaining (h : it.Mirrors φ it') : it'.remaining = it.remaining := by
  unfold Iterator.remaining
  obtain ⟨hs, hs'⟩ | ⟨s, s', hs, hs', hitems⟩ := h.cases
  · rw [hs, hs']
  · simp [hs, hs', hitems, h.index]

end Iterator.Mirrors

namespace Mirrored

theorem same (h : Mirrored φ pairs r r') {s s' : Registry} (hs : r.Same s) (hs' : r'.Same s')
    (hr : Reachable s) (hr' : Reachable s') : Mirrored φ pairs s s' := by
  obtain ⟨hparts, hcat, hslots⟩ := hs
  obtain ⟨hparts', hcat', hslots'⟩ := hs'
  refine ⟨hr, hr', ?_, ?_, ?_, ?_⟩
  · rw [hcat, hcat']
    exact h.knows
  · rw [hcat, hcat']
    exact h.column
  · unfold Registry.collection? Registry.contents
    rw [hslots, hslots', hparts, hparts']
    exact h.held
  · unfold Registry.collection?
    rw [hslots, hslots']
    exact h.shared

theorem begin (h : Mirrored φ pairs r r') {c d : Collection}
    (hcontents : r'.contents d = (r.contents c).rename φ) :
    Mirrored φ pairs (r.begin c).2 (r'.begin d).2 ∧ (r.begin c).1.Mirrors φ (r'.begin d).1 := by
  refine ⟨h.same (Registry.same_begin r c) (Registry.same_begin r' d) (h.reachable.begin c)
    (h.reachable'.begin d), ?_⟩
  simp only [Registry.begin, hcontents, Contents.entries_rename, List.isEmpty_map]
  split
  · exact ⟨rfl, rfl⟩
  · exact ⟨rfl, rfl⟩

/-- If the bodies of two iterations go on mirroring, so do the iterations. -/
theorem walk {body body' : Nat → Registry → Registry × List Answer}
    (hbody : ∀ n s s', Mirrored φ pairs s s' → FollowAll φ pairs (body n s) (body' n s'))
    (fuel : Nat) {it it' : Iterator} (hit : it.Mirrors φ it') (h : Mirrored φ pairs r r') :
    Mirrored φ pairs (Registry.walk body fuel it r).registry
        (Registry.walk body' fuel it' r').registry ∧
      (Registry.walk body' fuel it' r').visited = (Registry.walk body fuel it r).visited.map φ ∧
      List.Forall₂ (Answer.Mirrors φ) (Registry.walk body fuel it r).answers
        (Registry.walk body' fuel it' r').answers := by
  induction fuel generalizing it it' r r' with
  | zero => exact ⟨h, rfl, .nil⟩
  | succ n ih =>
    unfold Registry.walk
    rw [hit.same_past, hit.index]
    split
    · exact ⟨h, rfl, .nil⟩
    · obtain ⟨hfirst, hanswers⟩ := hbody it.index r r' h
      obtain ⟨hrest, hvisited, hothers⟩ := ih hit.next hfirst
      refine ⟨hrest, ?_, List.rel_append hanswers hothers⟩
      simp only [hvisited, hit.item?, List.map_append]
      cases it.item? <;> rfl

theorem iterate (h : Mirrored φ pairs r r') {c d : Collection}
    (hcontents : r'.contents d = (r.contents c).rename φ)
    {body body' : Nat → Registry → Registry × List Answer}
    (hbody : ∀ n s s', Mirrored φ pairs s s' → FollowAll φ pairs (body n s) (body' n s')) :
    Follows φ pairs (r.iterate c body) (r'.iterate d body') := by
  obtain ⟨hbegin, hit⟩ := h.begin hcontents
  obtain ⟨hwalk, hvisited, hanswers⟩ := walk hbody (r.begin c).1.remaining hit hbegin
  unfold Registry.iterate
  simp only [hit.remaining]
  exact ⟨hwalk, .mk (congrArg Outcome.visited hvisited) hanswers⟩

end Mirrored

/-! ## Every use -/

theorem Call.rename_refl (call : Call) : call.rename (Equiv.refl ItemId) = call := by
  cases call <;> simp [rename]

theorem Query.rename_refl (query : Query) : query.rename (Equiv.refl ItemId) = query := by
  cases query <;> simp [rename]

/-- A place in two groups that are paired slot by slot. -/
abbrev Place (pairs : List (String × String)) : Type := { p : String × String // p ∈ pairs }

namespace Mirrored

-- By induction on the use: an action is a case of its own, an iteration goes by the uses it makes.
mutual

theorem answer : (u : Use (Place pairs)) → (r r' : Registry) → Mirrored φ pairs r r' →
    Follows φ pairs (Registry.answer (u.request (·.1.1) (Equiv.refl _)) r)
      (Registry.answer (u.request (·.1.2) φ) r')
  | .call k c mode, r, r', h => by
    simp only [Use.request, Registry.answer, Call.rename_refl]
    exact h.act_call k.2 c mode
  | .ask k query hq, r, r', h => by
    simp only [Use.request, Registry.answer, Query.rename_refl]
    exact h.act_ask k.2 hq
  | .compare j k, r, r', h => by
    simp only [Use.request, Registry.answer]
    exact h.act_compare j.2 k.2
  | .setKey i key, r, r', h => by
    simp only [Use.request, Registry.answer, Equiv.refl_apply]
    exact h.act_setKey i key
  | .iterate k body, r, r', h => by
    obtain ⟨c, d, hc, hd, -, hcontents⟩ := h.held k.1 k.2
    simp only [Use.request, Registry.answer, hc, hd]
    exact h.iterate hcontents (bodyAt body)

theorem answerAll : (us : List (Use (Place pairs))) → (r r' : Registry) →
    Mirrored φ pairs r r' →
    FollowAll φ pairs (Registry.answerAll (Use.requests (·.1.1) (Equiv.refl _) us) r)
      (Registry.answerAll (Use.requests (·.1.2) φ us) r')
  | [], r, r', h => by
    simp only [Use.requests, Registry.answerAll]
    exact ⟨h, .nil⟩
  | u :: rest, r, r', h => by
    simp only [Use.requests, Registry.answerAll]
    obtain ⟨hfirst, hanswer⟩ := answer u r r' h
    obtain ⟨hrest, hanswers⟩ := answerAll rest _ _ hfirst
    exact ⟨hrest, .cons hanswer hanswers⟩

theorem bodyAt : (body : List (Nat × List (Use (Place pairs)))) → (n : Nat) → (r r' : Registry) →
    Mirrored φ pairs r r' →
    FollowAll φ pairs (Registry.bodyAt (Use.bodyRequests (·.1.1) (Equiv.refl _) body) n r)
      (Registry.bodyAt (Use.bodyRequests (·.1.2) φ body) n r')
  | [], n, r, r', h => by
    simp only [Use.bodyRequests, Registry.bodyAt]
    exact ⟨h, .nil⟩
  | p :: rest, n, r, r', h => by
    simp only [Use.bodyRequests, Registry.bodyAt]
    have hindex : ∀ slot ψ, (Use.partRequests slot ψ p).1 = p.1 := fun _ _ => by
      rw [Use.partRequests]
    simp only [hindex]
    split
    · exact answerPart p r r' h
    · exact bodyAt rest n r r' h

theorem answerPart : (p : Nat × List (Use (Place pairs))) → (r r' : Registry) →
    Mirrored φ pairs r r' →
    FollowAll φ pairs (Registry.answerPart (Use.partRequests (·.1.1) (Equiv.refl _) p) r)
      (Registry.answerPart (Use.partRequests (·.1.2) φ p) r')
  | (_, us), r, r', h => by
    simp only [Use.partRequests, Registry.answerPart]
    exact answerAll us r r' h

end

end Mirrored

end KeyedColumns
