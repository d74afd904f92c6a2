import Mathlib.Data.List.Nodup

/-! # JSON merge patches

JSON values with the merge of RFC 7386: an object as the patch is merged into
the target member by member, a `null` removes a member, and everything else
replaces what was there. The result is given by its paths: what the members of
the patch do not mention is left alone, at every depth. -/

namespace K8sSched.Lib.MergePatch

/-- `α` are the numbers, strings and truth values. -/
inductive Json (α : Type) where
  | null
  | leaf (value : α)
  | arr (items : List (Json α))
  | obj (members : List (String × Json α))

abbrev Members (α : Type) := List (String × Json α)

variable {α : Type}

/-- A value that is no object, or none at all, counts as an empty one. -/
def Json.members : Json α → Members α
  | .obj ms => ms
  | _ => []

def Json.isNull : Json α → Bool
  | .null => true
  | _ => false

def remove (name : String) (ms : Members α) : Members α := ms.filter fun m => m.1 ≠ name

def set (name : String) (value : Json α) (ms : Members α) : Members α :=
  (name, value) :: remove name ms

mutual

def mergePatch (target : Json α) : Json α → Json α
  | .obj patch => .obj (mergeMembers target.members patch)
  | .null => .null
  | .leaf value => .leaf value
  | .arr items => .arr items

/-- The members of the patch one after the other. -/
def mergeMembers (ms : Members α) : Members α → Members α
  | [] => ms
  | (name, value) :: patch =>
    mergeMembers
      (if value.isNull then remove name ms
        else set name (mergePatch ((ms.lookup name).getD .null) value) ms) patch

end

/-- The value at the end of a path of member names. -/
def Json.get (json : Json α) : List String → Option (Json α)
  | [] => some json
  | name :: path => (json.members.lookup name).bind fun value => value.get path

theorem Json.get_cons (json : Json α) (name : String) (path : List String) :
    json.get (name :: path) = (json.members.lookup name).bind fun value => value.get path := by
  rw [Json.get]

/-! ## Members -/

theorem lookup_cons_eq (k n : String) (value : Json α) (ms : Members α) :
    ((k, value) :: ms : Members α).lookup n = if n = k then some value else ms.lookup n := by
  rw [List.lookup_cons]
  by_cases hn : n = k
  · simp [hn]
  · have hne : (n == k) = false := beq_eq_false_iff_ne.mpr hn
    simp [hne, hn]

@[simp] theorem lookup_remove (name n : String) (ms : Members α) :
    (remove name ms).lookup n = if n = name then none else ms.lookup n := by
  induction ms with
  | nil => simp [remove]
  | cons m ms ih =>
    obtain ⟨k, v⟩ := m
    unfold remove at ih ⊢
    by_cases hk : k = name
    · subst hk
      rw [List.filter_cons_of_neg (by simp), ih, lookup_cons_eq]
      by_cases hn : n = k
      · simp [hn]
      · simp [hn]
    · rw [List.filter_cons_of_pos (by simpa using hk), lookup_cons_eq, ih, lookup_cons_eq]
      by_cases hn : n = k
      · simp [hn, hk]
      · simp [hn]

@[simp] theorem lookup_set (name n : String) (value : Json α) (ms : Members α) :
    (set name value ms).lookup n = if n = name then some value else ms.lookup n := by
  rw [set, lookup_cons_eq, lookup_remove]
  by_cases hn : n = name
  · simp [hn]
  · simp [hn]

theorem lookup_eq_none {name : String} {ms : Members α} (h : name ∉ ms.map Prod.fst) :
    ms.lookup name = none := by
  rw [List.lookup_eq_none_iff]
  intro m hm
  have hne : name ≠ m.1 := fun heq => h (heq ▸ List.mem_map_of_mem hm)
  simpa using hne

/-- What one member of a patch makes of the member of the target. -/
def mergeMember (old : Option (Json α)) : Option (Json α) → Option (Json α)
  | none => old
  | some value => if value.isNull then none else some (mergePatch (old.getD .null) value)

/-- Each name is merged on its own. -/
theorem lookup_mergeMembers {patch : Members α} (hnodup : (patch.map Prod.fst).Nodup)
    (ms : Members α) (name : String) :
    (mergeMembers ms patch).lookup name = mergeMember (ms.lookup name) (patch.lookup name) := by
  induction patch generalizing ms with
  | nil =>
    rw [mergeMembers]
    rfl
  | cons m patch ih =>
    obtain ⟨k, v⟩ := m
    obtain ⟨hfresh, hrest⟩ := List.nodup_cons.mp hnodup
    rw [mergeMembers, ih hrest, lookup_cons_eq]
    by_cases hn : name = k
    · subst hn
      -- the rest of the patch does not mention the name again
      rw [lookup_eq_none hfresh]
      cases hv : v.isNull <;> simp [mergeMember, hv]
    · cases v.isNull <;> simp [hn]

/-! ## Paths -/

@[simp] theorem members_mergePatch_obj (target : Json α) (patch : Members α) :
    (mergePatch target (.obj patch)).members = mergeMembers target.members patch := by
  rw [mergePatch]
  rfl

/-- A patch with one member. -/
theorem members_merge_singleton (target value : Json α) (name n : String) :
    (mergePatch target (.obj [(name, value)])).members.lookup n =
      if n = name then mergeMember (target.members.lookup n) (some value)
      else target.members.lookup n := by
  rw [members_mergePatch_obj, lookup_mergeMembers (by simp), lookup_cons_eq]
  by_cases hn : n = name
  · simp [hn]
  · simp [hn, mergeMember]

/-- Paths that start at another name are left alone. -/
theorem get_merge_ne (target value : Json α) {name n : String} (hn : n ≠ name)
    (path : List String) :
    (mergePatch target (.obj [(name, value)])).get (n :: path) = target.get (n :: path) := by
  rw [Json.get_cons, members_merge_singleton, if_neg hn, Json.get_cons]

/-- Paths through the member go on in the merge of its value. -/
theorem get_merge_obj (target : Json α) (name : String) (patch : Members α)
    (path : List String) :
    (mergePatch target (.obj [(name, .obj patch)])).get (name :: path) =
      (mergePatch ((target.get [name]).getD .null) (.obj patch)).get path := by
  have hold : target.get [name] = target.members.lookup name := by
    rw [Json.get_cons]
    cases target.members.lookup name <;> rfl
  rw [Json.get_cons, members_merge_singleton, if_pos rfl, hold]
  rfl

/-- A `null` removes its member. -/
theorem get_merge_null (target : Json α) (name : String) :
    (mergePatch target (.obj [(name, .null)])).get [name] = none := by
  rw [Json.get_cons, members_merge_singleton, if_pos rfl]
  rfl

/-- A path goes on from the value it has come to. -/
theorem get_append_getD (json : Json α) (start : List String) (name : String)
    (path : List String) :
    ((json.get start).getD .null).get (name :: path) = json.get (start ++ name :: path) := by
  induction start generalizing json with
  | nil => rfl
  | cons n start ih =>
    rw [List.cons_append, Json.get_cons json n start, Json.get_cons json n (start ++ name :: path)]
    cases json.members.lookup n with
    | none => rfl
    | some value => exact ih value

end K8sSched.Lib.MergePatch
