import K8sSched.Lib.GoMap

/-! # The API server

What the agents take for granted of the API server, for the objects of one kind.
It has at most one object under a name; whatever is written, a status too, gets a
resource version of its own, by which `addPolicy` of `internal/policy/resolver.go`
tells a new state from one it has. Of the metadata only the name and the version
are here, outside the content. -/

namespace K8sSched.Agent.ApiServer
open K8sSched.Lib.GoMap

variable {ρ : Type}

/-- An object as unstructured content. -/
structure Object (ρ : Type) where
  name : String
  resourceVersion : String
  content : ρ
  deriving DecidableEq

/-- The objects, and all versions of them there have been; a resource version is
not used again. -/
structure Server (ρ : Type) where
  current : Finmap fun _ : String => Object ρ
  history : List (Object ρ)
  versions : (history.map Object.resourceVersion).Nodup
  recorded : ∀ name u, current.lookup name = some u → u ∈ history ∧ u.name = name

/-- No objects yet. -/
def Server.empty : Server ρ := ⟨∅, [], List.nodup_nil, by simp⟩

/-- Creates or replaces an object. -/
def Server.write (s : Server ρ) (u : Object ρ) : Option (Server ρ) :=
  if h : u.resourceVersion ∉ s.history.map Object.resourceVersion then
    some
      { current := s.current.insert u.name u
        history := u :: s.history
        versions := List.nodup_cons.mpr ⟨h, s.versions⟩
        recorded := by
          intro name v hv
          rcases lookup_insert_eq_some.mp hv with ⟨rfl, rfl⟩ | ⟨-, hv⟩
          · exact ⟨List.mem_cons_self, rfl⟩
          · exact (s.recorded name v hv).imp_left (List.mem_cons_of_mem _) }
  else none

def Server.remove (s : Server ρ) (name : String) : Server ρ :=
  { s with
    current := s.current.erase name
    recorded := fun n u hu => s.recorded n u (lookup_erase_eq_some.mp hu).2 }

section

variable {s t : Server ρ} {u : Object ρ}

theorem Server.write_eq_some (h : s.write u = some t) :
    t.current = s.current.insert u.name u ∧ t.history = u :: s.history := by
  unfold Server.write at h
  split at h
  · cases h
    exact ⟨rfl, rfl⟩
  · cases h

theorem Server.exists_write (h : u.resourceVersion ∉ s.history.map Object.resourceVersion) :
    ∃ t, s.write u = some t :=
  ⟨_, dif_pos h⟩

/-- What is read of the object under a name, after a write. -/
theorem Server.lookup_write (h : s.write u = some t) (name : String) :
    t.current.lookup name = if u.name = name then some u else s.current.lookup name := by
  rw [(Server.write_eq_some h).1]
  by_cases hname : u.name = name
  · rw [if_pos hname, ← hname, Finmap.lookup_insert]
  · rw [if_neg hname, Finmap.lookup_insert_of_ne _ (Ne.symm hname)]

theorem Server.lookup_remove (removed name : String) :
    (s.remove removed).current.lookup name =
      if removed = name then none else s.current.lookup name := by
  by_cases hname : removed = name
  · rw [if_pos hname, ← hname]
    exact Finmap.lookup_erase _ _
  · rw [if_neg hname]
    exact Finmap.lookup_erase_ne (Ne.symm hname)

end

end K8sSched.Agent.ApiServer
