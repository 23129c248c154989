import KeyedColumns.Proofs.Refusal

/-!
# What runs comes to

Step by step, what runs when a collection is called or made comes to what the call comes to as a whole. All
that is checked is checked before the contents are written, so what fails has written nothing but the code.
-/

namespace KeyedColumns

open Routine

variable {column : ItemId → Column} {self : Reference} {kind : Kind} {c : Contents}
  {code : ErrorCode} {ns : List Notice} {bs : List Breach}

namespace Work

variable {α β : Type}

/-- The work after a refusal. -/
def refused (w : Work) (f : Refusal) : Work :=
  { w with code := some (.failed f.error), notices := w.notices ++ f.notices }

/-- What a routine comes to on some work that comes to an attempt, and sets the code in either case. -/
def settled (w : Work) (neutral : α) : Except Refusal (Done α) → Except Failure α × Work
  | .ok d => (.ok d.value, (w.after d).write .success)
  | .error f => (.ok neutral, w.refused f)

theorem breaches_settled (c : Contents) (code : ErrorCode) (ns : List Notice) (bs : List Breach)
    (neutral : α) (x : Except Refusal (Done α)) :
    (settled ⟨c, some code, ns, bs⟩ neutral x).2.breaches = bs ++ breachesOf x := by
  cases x with
  | ok d => rfl
  | error f => exact (List.append_nil bs).symm

theorem after_after (w : Work) (d : Done α) (e : Done β) :
    (w.after d).after e =
      w.after { e with notices := d.notices ++ e.notices, breaches := d.breaches ++ e.breaches } := by
  simp [after, List.append_assoc]

theorem settled_of (c : Contents) (code : ErrorCode) (ns : List Notice) (bs : List Breach)
    (neutral : α) (operation : Operation) (e : CollectionError) (details : List Notice) :
    settled ⟨c, some code, ns, bs⟩ neutral (.error (.of operation e details)) =
      (.ok neutral, ⟨c, some (.failed e), ns ++ details ++ [.emitted operation e], bs⟩) := by
  simp [settled, refused, Refusal.of]

end Work

/-! ## Routines without a code -/

namespace Routine

variable {α β : Type}

/-- What comes of raising what the code says at the end. -/
def raised (operation : Operation) : Except Failure α × Work → Except Failure α × Work
  | (.ok value, w) =>
    let code := w.code.getD .success
    (if code.isFailure then .error ⟨code, operation.name⟩ else .ok value, { w with code := none })
  | (.error f, w) => (.error f, w)

/-- Without a code, the routine does what it does on a fresh one, and raises what that says. -/
def Raises (operation : Operation) (routine : Routine Work α) : Prop :=
  ∀ c ns bs, routine.on ⟨c, none, ns, bs⟩ = raised operation (routine.on ⟨c, some .success, ns, bs⟩)

theorem Raises.map {operation : Operation} {routine : Routine Work α} (h : Raises operation routine)
    (f : α → β) : Raises operation (f <$> routine) := by
  intro c ns bs
  rw [on_map, on_map, h]
  obtain ⟨_ | value, w⟩ := routine.on ⟨c, some .success, ns, bs⟩
  · rfl
  · simp only [raised]
    cases (w.code.getD .success).isFailure <;> rfl

theorem Raises.breaches {operation : Operation} {routine : Routine Work α}
    (h : Raises operation routine)
    (hcoded : ∀ code, (routine.on (.start c (some code))).2.breaches = bs) (mode : Mode) :
    (routine.on (.start c mode.given)).2.breaches = bs := by
  cases mode with
  | code before => exact hcoded before
  | raising =>
    rw [← hcoded .success]
    unfold Work.start Mode.given
    rw [h]
    obtain ⟨_ | _, w⟩ := routine.on ⟨c, some .success, [], []⟩ <;> rfl

theorem raises_reporting (operation : Operation) (body : Routine Work α) :
    Raises operation (reporting operation body) := by
  intro c ns bs
  rw [reporting_on_code]
  unfold reporting entering execute
  simp only [on_bind, on_get, on_onCode]
  obtain ⟨_ | value, w⟩ := body.on ⟨c, some .success, ns, bs⟩
  · rfl
  · simp only [raised]
    cases (w.code.getD .success).isFailure <;> rfl

theorem raises_constructing (kind : Kind) (body : Routine Work Unit) :
    Raises (.construct kind) (constructing kind body) := by
  intro c ns bs
  rw [constructing_on_code]
  unfold constructing
  simp only [on_bind, on_get, on_onCode, Option.getD_none]
  obtain ⟨_ | _, w⟩ := body.on ⟨c, some .success, ns, bs⟩
  · rfl
  · simp only [raised, on_modify, Option.map_none, Option.isSome_none, Bool.false_eq_true, if_false,
      Option.getD_some]
    cases (w.code.getD .success).isFailure <;> rfl

end Routine

/-! ## Lookups -/

namespace Lookup

theorem byKey_on (key : String) :
    (byKey kind key).on ⟨c, some code, ns, bs⟩ =
      Work.settled ⟨c, some code, ns, bs⟩ none (c.lookupKey kind key) := by
  unfold byKey Contents.lookupKey
  simp only [reporting_on_code, on_bind, on_contents]
  cases c.find? key with
  | none => simp [Work.settled_of, Work.write]
  | some i => simp [Work.settled, Work.write, Work.after]

theorem byPosition_on (position : Nat) :
    (byPosition kind position).on ⟨c, some code, ns, bs⟩ =
      Work.settled ⟨c, some code, ns, bs⟩ none (c.lookupPosition kind position) := by
  unfold byPosition Contents.lookupPosition
  simp only [reporting_on_code, on_bind, on_contents]
  cases c.items[position]? with
  | none => simp [Work.settled_of, Work.write]
  | some i => simp [Work.settled, Work.write, Work.after]

theorem byItem_on (item : Option ItemId) :
    (byItem kind item).on ⟨c, some code, ns, bs⟩ =
      Work.settled ⟨c, some code, ns, bs⟩ false (c.refuseItem kind item) := by
  unfold byItem Contents.refuseItem
  simp [reporting_on_code, Work.settled_of, Work.write]

end Lookup

/-- What a construction leaves of some work, if it comes to an attempt. -/
def Work.founded (w : Work) (kind : Kind) (self : Reference) : Except Refusal (Done Unit) → Work
  | .ok d => (w.after d).write .success
  | .error f => { w.refused f with notices := w.notices ++ f.notices ++ [.leftEmpty kind self] }

theorem Work.breaches_founded (c : Contents) (code : ErrorCode) (self : Reference)
    (x : Except Refusal (Done Unit)) :
    (founded ⟨c, some code, [], []⟩ kind self x).breaches = breachesOf x := by
  cases x <;> rfl

/-! ## Lenient collections -/

namespace Lenient

theorem checkItems_on (given : List (String × Option ItemId)) :
    (checkItems given).on ⟨c, some code, ns, bs⟩ =
      match checkEntries given with
      | .ok _ => (.ok true, ⟨c, some .success, ns, bs⟩)
      | .error f => (.ok false, Work.refused ⟨c, some code, ns, bs⟩ f) := by
  induction given with
  | nil => simp [checkItems, checkEntries, Work.write]
  | cons e rest ih =>
    obtain ⟨key, _ | i⟩ := e
    · simp [checkItems, checkEntries, Work.write, Work.refused, Refusal.of]
    · rw [checkItems, ih, checkEntries]
      cases checkEntries rest <;> rfl

theorem checkBatch_on (items : List (Option ItemId)) :
    (checkBatch items).on ⟨c, some code, ns, bs⟩ =
      match allPresent items with
      | some _ => (.ok true, ⟨c, some code, ns, bs⟩)
      | none => (.ok false, Work.refused ⟨c, some code, ns, bs⟩ (.of .extend .nullItem [])) := by
  induction items with
  | nil => rfl
  | cons item rest ih =>
    cases item with
    | none => simp [checkBatch, allPresent, Work.write, Work.refused, Refusal.of]
    | some i =>
      rw [checkBatch, ih]
      simp only [allPresent, List.mapM_cons]
      cases rest.mapM id <;> rfl

theorem appendAll_on (es : List Entry) (w : Work) :
    (forM es fun e => append e.key (some e.item)).on w =
      (.ok ⟨⟩, { w with contents := es.foldl Contents.append w.contents }) := by
  induction es generalizing w with
  | nil => rfl
  | cons e rest ih => simp [ih]

theorem appendOwn_on (is : List ItemId) (w : Work) :
    (forM is fun i => append (column i).key (some i)).on w =
      (.ok ⟨⟩, { w with contents :=
        (is.map fun i => ⟨(column i).key, i⟩).foldl Contents.append w.contents }) := by
  have h := appendAll_on (is.map fun i => ⟨(column i).key, i⟩) w
  rwa [List.forM_map] at h

theorem construct_on (given : List (String × Option ItemId)) :
    (construct self given).on ⟨Contents.empty, some code, ns, bs⟩ =
      (.ok (), Work.founded ⟨Contents.empty, some code, ns, bs⟩ .lenient self
        (tryConstruct self given)) := by
  unfold construct tryConstruct
  simp only [constructing_on_code, on_bind, checkItems_on]
  cases h : checkEntries given with
  | error f => simp [Work.founded, Work.refused]
  | ok es =>
    obtain rfl := checkEntries_ok h
    simp [appendAll_on, Work.founded, Work.after, Work.write]

theorem addUnder_on (item : Option ItemId) (key : String) :
    (addUnder column self item key).on ⟨c, some code, ns, bs⟩ =
      Work.settled ⟨c, some code, ns, bs⟩ false (tryAdd column self c item (some key)) := by
  unfold addUnder tryAdd
  cases item with
  | none => simp [reporting_on_code, Work.settled_of, Work.write]
  | some i => simp [reporting_on_code, Work.settled, Work.after, Work.write]

theorem add_on (item : Option ItemId) (key : Option String) :
    (add column self item key).on ⟨c, some code, ns, bs⟩ =
      Work.settled ⟨c, some code, ns, bs⟩ false (tryAdd column self c item key) := by
  cases key with
  | some key => exact addUnder_on item key
  | none =>
    simp only [add, addOwn, reporting_on_code]
    cases item with
    | none => simp [tryAdd, Work.settled_of, Work.write]
    | some i => exact addUnder_on (some i) (column i).key

theorem extend_on (items : List (Option ItemId)) :
    (extend column self items).on ⟨c, some code, ns, bs⟩ =
      Work.settled ⟨c, some code, ns, bs⟩ false (tryExtend column self c items) := by
  unfold extend tryExtend
  simp only [reporting_on_code, on_bind, checkBatch_on]
  cases h : allPresent items with
  | none => rfl
  | some is =>
    obtain rfl := allPresent_eq_some_iff.mp h
    simp [appendOwn_on, Work.settled, Work.after, Work.write]

end Lenient

/-! ## Deduplicating collections -/

namespace Dedupe

theorem checkItem_on (item : Option ItemId) (given : Option String) :
    (checkItem column item given).on ⟨c, some code, ns, bs⟩ =
      match check column item given with
      | .ok _ => (.ok true, ⟨c, some .success, ns, bs⟩)
      | .error f => (.ok false, Work.refused ⟨c, some code, ns, bs⟩ f) := by
  unfold checkItem check
  cases item with
  | none => simp [Work.write, Work.refused, Refusal.of]
  | some i =>
    simp only
    cases given.filter (· ≠ (column i).key) with
    | some key => simp [Work.write, Work.refused, Refusal.of]
    | none =>
      by_cases h : (column i).key = ""
      · simp [h, Work.write, Work.refused, Refusal.of]
      · simp [h, Work.write]

/-- What has been checked set the code. Of no items there is nothing to say. -/
theorem checkEach_on (given : List (Option ItemId × Option String)) :
    (checkEach column given).on ⟨c, some code, ns, bs⟩ =
      match checkAll column given with
      | .ok _ => (.ok true, ⟨c, some (if given = [] then code else .success), ns, bs⟩)
      | .error f => (.ok false, Work.refused ⟨c, some code, ns, bs⟩ f) := by
  induction given generalizing code with
  | nil => rfl
  | cons x rest ih =>
    obtain ⟨item, key⟩ := x
    simp only [checkEach, checkAll, on_bind, checkItem_on]
    cases check column item key with
    | error f => rfl
    | ok i =>
      simp only [if_true, ih]
      cases checkAll column rest <;> simp [Work.refused]

theorem checkGiven_on (given : List (String × Option ItemId)) :
    (checkGiven column given).on ⟨c, some code, ns, bs⟩ =
      match checkEntries column given with
      | .ok _ => (.ok true, ⟨c, some .success, ns, bs⟩)
      | .error f => (.ok false, Work.refused ⟨c, some code, ns, bs⟩ f) := by
  unfold checkGiven checkEntries
  simp only [on_bind, checkEach_on]
  cases checkAll column (given.map fun e => (e.2, some e.1)) <;> rfl

/-! ### Operations on checked items -/

theorem addEach_on (is : List ItemId) (w : Work) :
    (addEach column self (is.map some)).on w =
      (.ok (each (put column self) w.contents is).value,
        w.after (each (put column self) w.contents is)) := by
  induction is generalizing w with
  | nil => simp [addEach, each, Work.after]
  | cons i rest ih =>
    simp only [List.map_cons, addEach, addChecked, withItem_some, on_bind, on_perform, ih, on_pure,
      Work.after_after, each]
    rfl

theorem replaceEach_on (is : List ItemId) (w : Work) :
    (replaceEach column self is).on w =
      (.ok (each (supplant column self) w.contents is).value,
        w.after (each (supplant column self) w.contents is)) := by
  induction is generalizing w with
  | nil => simp [replaceEach, each, Work.after]
  | cons i rest ih =>
    simp only [replaceEach, replaceChecked, on_bind, on_perform, ih, on_pure, Work.after_after, each]
    rfl

theorem appendApart_on (is : List ItemId) (w : Work) :
    (appendApart column (is.map fun i => ((column i).key, some i))).on w =
      (.ok (decide ((appendFree column w.contents is).2.length < is.length),
        (appendFree column w.contents is).2),
        { w with contents := (appendFree column w.contents is).1 }) := by
  induction is generalizing w with
  | nil => rfl
  | cons i rest ih =>
    simp only [List.map_cons, appendApart, withItem_some, on_bind, on_contents, appendFree]
    split
    · simp [ih]
    · have hle := (deferred_sublist column (w.contents.append ⟨(column i).key, i⟩) rest).length_le
      simp [ih, Nat.lt_succ_of_le hle]

/-! ### Operations -/

theorem construct_on (given : List (String × Option ItemId)) :
    (construct column self given).on ⟨Contents.empty, some code, ns, bs⟩ =
      (.ok (), Work.founded ⟨Contents.empty, some code, ns, bs⟩ .dedupe self
        (tryConstruct column self given)) := by
  unfold construct tryConstruct
  simp only [constructing_on_code, on_bind, checkGiven_on]
  cases h : checkEntries column given with
  | error f => simp [Work.founded, Work.refused]
  | ok is => simp [checkEntries_items h, addEach_on, Work.founded, Work.after, Work.write]

theorem add_on (item : Option ItemId) (key : Option String) :
    (add column self item key).on ⟨c, some code, ns, bs⟩ =
      Work.settled ⟨c, some code, ns, bs⟩ false (tryAdd column self c item key) := by
  unfold add tryAdd
  simp only [reporting_on_code, on_bind, checkItem_on]
  cases h : check column item key with
  | error f => rfl
  | ok i =>
    obtain ⟨rfl, -⟩ := check_ok h
    rfl

/-- An empty batch is checked and added without a word to the code. -/
theorem extend_on (items : List (Option ItemId)) :
    (extend column self items).on ⟨c, some code, ns, bs⟩ =
      if items = [] then (.ok false, ⟨c, some code, ns, bs⟩)
      else Work.settled ⟨c, some code, ns, bs⟩ false (tryExtend column self c items) := by
  unfold extend tryExtend
  simp only [reporting_on_code, on_bind, checkEach_on, List.map_eq_nil_iff]
  by_cases hne : items = []
  · subst hne
    rfl
  · simp only [if_neg hne]
    cases h : checkAll column (items.map fun i => (i, none)) with
    | error f => rfl
    | ok is =>
      have his : items = is.map some := by
        rw [← (checkAll_ok h).1, List.map_map]
        exact (List.map_id items).symm
      simp only [if_true, his, addEach_on]
      rfl

theorem replace_on (item : Option ItemId) :
    (replace column self item).on ⟨c, some code, ns, bs⟩ =
      Work.settled ⟨c, some code, ns, bs⟩ false (tryReplace column self c item) := by
  unfold replace tryReplace
  simp only [reporting_on_code, on_bind, checkItem_on]
  cases h : check column item none with
  | error f => rfl
  | ok i =>
    obtain ⟨rfl, -⟩ := check_ok h
    rfl

theorem remove_on (item : Option ItemId) :
    (remove column self item).on ⟨c, some code, ns, bs⟩ =
      Work.settled ⟨c, some code, ns, bs⟩ false (tryRemove column self c item) := by
  unfold remove tryRemove
  cases item with
  | none => simp [reporting_on_code, Work.settled_of, Work.write]
  | some i =>
    simp only [reporting_on_code, on_bind, on_contents]
    split
    · rfl
    · simp [Work.settled_of, Work.write]

theorem populate_on (given : List (String × Option ItemId)) :
    (populate column self given).on ⟨c, some code, ns, bs⟩ =
      Work.settled ⟨c, some code, ns, bs⟩ false (tryPopulate column self c given) := by
  unfold populate tryPopulate
  simp only [reporting_on_code, on_bind, checkGiven_on]
  cases h : checkEntries column given with
  | error f => rfl
  | ok is =>
    obtain rfl := checkEntries_ok h
    simp [appendApart_on, replaceEach_on, Work.settled, Work.after, Work.write, Bool.or_comm]

end Dedupe

/-! ## Calls and constructions -/

theorem Routine.on_map_of_settled {α β : Type} {routine : Routine Work α} {w : Work} {neutral : α}
    {x : Except Refusal (Done α)} (h : routine.on w = w.settled neutral x) (f : α → β) :
    (f <$> routine).on w = w.settled (f neutral) (x.map (·.map f)) := by
  rw [on_map, h]
  cases x <;> rfl

namespace Call

theorem refuse_on (operation : Operation) :
    (reporting operation (refuse operation)).on ⟨c, some code, ns, bs⟩ =
      Work.settled ⟨c, some code, ns, bs⟩ false
        (.error (refusal c operation) : Except Refusal (Done Bool)) := by
  unfold refuse refusal
  simp [reporting_on_code, Work.settled_of, Work.write]

variable {call : Call}

theorem routine_on (hs : ¬ call.Silent kind) :
    (call.routine column self kind).on ⟨c, some code, ns, bs⟩ =
      Work.settled ⟨c, some code, ns, bs⟩ call.neutral (call.attempt column self kind c) := by
  cases call with
  | lookupKey key => cases kind <;> exact on_map_of_settled (Lookup.byKey_on key) Result.item
  | lookupPosition position =>
    cases kind <;> exact on_map_of_settled (Lookup.byPosition_on position) Result.item
  | containsItem item => cases kind <;> exact on_map_of_settled (Lookup.byItem_on item) Result.flag
  | add item key =>
    cases kind with
    | view => exact on_map_of_settled (refuse_on _) Result.flag
    | lenient => exact on_map_of_settled (Lenient.add_on item key) Result.flag
    | dedupe => exact on_map_of_settled (Dedupe.add_on item key) Result.flag
  | extend items =>
    cases kind with
    | view => exact on_map_of_settled (refuse_on _) Result.flag
    | lenient => exact on_map_of_settled (Lenient.extend_on items) Result.flag
    | dedupe =>
      have hne : items ≠ [] := fun e => hs ⟨rfl, by rw [e]⟩
      exact on_map_of_settled ((Dedupe.extend_on items).trans (if_neg hne)) Result.flag
  | replace item =>
    cases kind with
    | view => exact on_map_of_settled (refuse_on _) Result.flag
    | lenient | dedupe => exact on_map_of_settled (Dedupe.replace_on item) Result.flag
  | remove item =>
    cases kind with
    | view => exact on_map_of_settled (refuse_on _) Result.flag
    | lenient | dedupe => exact on_map_of_settled (Dedupe.remove_on item) Result.flag
  | populate entries =>
    cases kind with
    | view => exact on_map_of_settled (refuse_on _) Result.flag
    | lenient | dedupe => exact on_map_of_settled (Dedupe.populate_on entries) Result.flag

theorem routine_on_silent (hs : call.Silent kind) :
    (call.routine column self kind).on ⟨c, some code, ns, bs⟩ =
      (.ok call.neutral, ⟨c, some code, ns, bs⟩) := by
  obtain ⟨rfl, rfl⟩ := hs
  simp only [routine, on_map, Dedupe.extend_on, if_pos]
  rfl

theorem attempt_silent (hs : call.Silent kind) :
    call.attempt column self kind c =
      .ok { value := call.neutral, contents := c, notices := [] } := by
  obtain ⟨rfl, rfl⟩ := hs
  rfl

/-- Every call goes the same way to raise what it fails with, also where calls are nested. -/
theorem raises_routine (call : Call) :
    Raises call.operation (call.routine column self kind) := by
  cases call with
  | lookupKey key => cases kind <;> exact (raises_reporting _ _).map _
  | lookupPosition position => cases kind <;> exact (raises_reporting _ _).map _
  | containsItem item => cases kind <;> exact (raises_reporting _ _).map _
  | add item key =>
    cases kind with
    | view | dedupe => exact (raises_reporting _ _).map _
    | lenient => cases key <;> exact (raises_reporting _ _).map _
  | extend | replace | remove | populate => cases kind <;> exact (raises_reporting _ _).map _

end Call

namespace Kind

variable {given : List (String × Option ItemId)}

theorem routine_on (hk : kind ≠ .view) :
    (kind.routine column self given).on ⟨Contents.empty, some code, ns, bs⟩ =
      (.ok (), Work.founded ⟨Contents.empty, some code, ns, bs⟩ kind self
        (kind.construct column self given)) := by
  cases kind with
  | view => exact absurd rfl hk
  | lenient => exact Lenient.construct_on given
  | dedupe => exact Dedupe.construct_on given

theorem raises_routine (hk : kind ≠ .view) :
    Raises (.construct kind) (kind.routine column self given) := by
  cases kind with
  | view => exact absurd rfl hk
  | lenient => exact raises_constructing _ _
  | dedupe => exact raises_constructing _ _

end Kind

/-! ## Callers -/

theorem Dedupe.check_readdress {item : Option ItemId} {key : Option String} {f : Refusal}
    (h : check column item key = .error f) (self : Reference) :
    f.notices.map (Notice.readdress self) = f.notices := by
  unfold check at h
  split at h
  · cases h
    rfl
  · split at h
    · cases h
      rfl
    · split at h
      · cases h
        rfl
      · cases h

theorem Kind.construct_readdress {given : List (String × Option ItemId)} {f : Refusal}
    (h : kind.construct column self given = .error f) (other : Reference) :
    f.notices.map (Notice.readdress other) = f.notices := by
  cases kind with
  | view => cases h
  | lenient =>
    unfold construct Lenient.tryConstruct at h
    simp only at h
    split at h
    · next hf =>
      cases h
      obtain ⟨key, rfl⟩ := Lenient.checkEntries_error hf
      rfl
    · cases h
  | dedupe =>
    unfold construct Dedupe.tryConstruct at h
    simp only at h
    split at h
    · next hf =>
      cases h
      obtain ⟨item, key, hcheck⟩ := Dedupe.checkAll_error hf
      exact Dedupe.check_readdress hcheck other
    · cases h

/-- What the log knows a collection by that could not be filled. Where there is none it has no slot. -/
def Mode.address (slot : String) : Mode → Reference
  | .code _ => .slot slot
  | .raising => .unnamed

namespace Registry

/-- A call that is refused has written the code of its caller, or raised that, and nothing else. -/
theorem call_eq (r : Registry) (slot : String) (c : Collection) (call : Call) (mode : Mode) :
    r.call slot c call mode =
      (r.write c (contentsAfter (r.contents c) (r.attempt slot c call)),
        reply mode c.kind call (r.attempt slot c call),
        r.log c.context (noticesOf (r.attempt slot c call))) := by
  unfold Registry.call run Work.start attempt
  by_cases hs : call.Silent c.kind
  · rw [Call.attempt_silent hs]
    cases mode with
    | code before =>
      simp only [Mode.given, Call.routine_on_silent hs]
      simp [reply, Mode.success, hs, contentsAfter, noticesOf, Reply.of]
    | raising =>
      simp only [Mode.given, Call.raises_routine call _ _ _, Call.routine_on_silent hs]
      rfl
  · cases mode with
    | code before =>
      simp only [Mode.given, Call.routine_on hs]
      cases call.attempt r.catalogue.column (.slot slot) c.kind (r.contents c) with
      | error f => rfl
      | ok d => simp [Work.settled, Work.after, Work.write, reply, Mode.success, hs, contentsAfter,
          noticesOf, Reply.of]
    | raising =>
      simp only [Mode.given, Call.raises_routine call _ _ _, Call.routine_on hs]
      cases call.attempt r.catalogue.column (.slot slot) c.kind (r.contents c) with
      | error f => rfl
      | ok d => rfl

/-- What there is after a construction that failed: an empty collection, or none if that is raised. -/
def unfilled (r : Registry) (slot : String) (kind : Kind) (logger : Option Nat) : Mode → Registry
  | .code _ => r.establish slot kind ⟨logger, .collection⟩ Contents.empty
  | .raising => r

theorem create_eq (r : Registry) (slot : String) (kind : Kind)
    (given : List (String × Option ItemId)) (logger : Option Nat) (mode : Mode) :
    r.create slot kind given logger mode =
      match kind.construct r.catalogue.column (.slot slot) given with
      | .ok d => (r.establish slot kind ⟨logger, .collection⟩ d.contents,
          mode.success (kind ≠ .view) (.flag true), r.log ⟨logger, .collection⟩ d.notices)
      | .error f => (r.unfilled slot kind logger mode, mode.constructFailure kind f.error,
          r.log ⟨logger, .collection⟩ (f.notices ++ [.leftEmpty kind (mode.address slot)])) := by
  unfold create Work.start
  by_cases hk : kind = .view
  · subst hk
    cases mode <;> rfl
  cases mode with
  | code before =>
    simp only [Mode.given, Kind.routine_on hk]
    cases kind.construct r.catalogue.column (.slot slot) given with
    | error f => rfl
    | ok d => simp [Work.founded, Work.after, Work.write, Mode.success, hk, Reply.of]
  | raising =>
    simp only [Mode.given, Kind.raises_routine hk _ _ _, Kind.routine_on hk]
    cases hf : kind.construct r.catalogue.column (.slot slot) given with
    | error f =>
      have hnotices := Kind.construct_readdress hf .unnamed
      simp [raised, Work.founded, Work.refused, ErrorCode.isFailure, ErrorCode.error?, unfilled,
        Mode.constructFailure, Mode.address, hnotices, Notice.readdress]
    | ok d => rfl

end Registry

end KeyedColumns
