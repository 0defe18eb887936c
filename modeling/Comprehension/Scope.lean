/-
Scopes: what names stand for.

A scope is a finite map from names to values that keeps the order in which names
were first bound. Each name occurs once: binding it again replaces its value where
it stands. The order can be seen (`names`, `entries`), so equality of scopes is
order-sensitive.

`insert` is the one primitive. Building from pairs, restricting to a list of names
and overlaying one scope on another are all repeated insertion.
-/

import Comprehension.Fault

namespace Comprehension

/-- An insertion-ordered finite map from names to values. -/
structure Scope (V : Type) where
  /-- The bindings, in order of first insertion. -/
  entries : List (Name × V)
  nodup : (entries.map Prod.fst).Nodup

namespace Scope

variable {V : Type}

/-- Two scopes are equal when they have equal bindings in the same order. -/
instance [BEq V] : BEq (Scope V) := ⟨fun a b => a.entries == b.entries⟩

@[ext] theorem ext {a b : Scope V} (h : a.entries = b.entries) : a = b := by
  cases a; cases b; cases h; rfl

/-- The bound names, in order. -/
def names (s : Scope V) : List Name := s.entries.map Prod.fst

/-- The value bound to a name in a list of bindings, the first one counting. -/
def find? (n : Name) : List (Name × V) → Option V
  | [] => none
  | (k, v) :: rest => if k = n then some v else find? n rest

/-- The value bound to a name. -/
def get? (s : Scope V) (n : Name) : Option V := find? n s.entries

def contains (s : Scope V) (n : Name) : Bool := (s.get? n).isSome

def size (s : Scope V) : Nat := s.entries.length

def isEmpty (s : Scope V) : Bool := s.entries.isEmpty

/-- The value bound to a name, or the fault that says it is not in scope. -/
def lookup (s : Scope V) (n : Name) : Except Fault V :=
  match s.get? n with
  | some v => .ok v
  | none => .error (.unboundName n)

def empty : Scope V := ⟨[], List.nodup_nil⟩

instance : EmptyCollection (Scope V) := ⟨empty⟩

/-- Replaces the value of `n` where `n` stands, or appends the binding. -/
def place (n : Name) (v : V) : List (Name × V) → List (Name × V)
  | [] => [(n, v)]
  | (k, w) :: rest => if k = n then (k, v) :: rest else (k, w) :: place n v rest

/-- Placing a binding leaves the names alone when the name is among them, and
appends it otherwise. -/
theorem map_fst_place (n : Name) (v : V) (entries : List (Name × V)) :
    (place n v entries).map Prod.fst =
      if n ∈ entries.map Prod.fst then entries.map Prod.fst
      else entries.map Prod.fst ++ [n] := by
  induction entries with
  | nil => rfl
  | cons entry rest ih =>
    obtain ⟨k, w⟩ := entry
    by_cases h : k = n
    · simp [place, h]
    · have hne : ¬ n = k := fun e => h e.symm
      by_cases mem : n ∈ rest.map Prod.fst
      · rw [if_pos mem] at ih
        simp only [place, if_neg h, List.map_cons, ih, if_pos (List.mem_cons_of_mem k mem)]
      · rw [if_neg mem] at ih
        have absent : n ∉ k :: rest.map Prod.fst := by
          simp only [List.mem_cons, not_or]
          exact ⟨hne, mem⟩
        simp only [place, if_neg h, List.map_cons, ih, if_neg absent, List.cons_append]

/-- Binds a name: a bound name keeps its place and takes the new value, a new one
goes to the end. -/
def insert (s : Scope V) (n : Name) (v : V) : Scope V where
  entries := place n v s.entries
  nodup := by
    rw [map_fst_place]
    split
    · exact s.nodup
    · rename_i fresh
      refine List.nodup_append.mpr ⟨s.nodup, by simp, ?_⟩
      intro a ha b hb hab
      rw [List.mem_singleton.mp hb] at hab
      exact fresh (hab ▸ ha)

/-- Binds each pair in turn, on top of a scope. -/
def insertAll (s : Scope V) (pairs : List (Name × V)) : Scope V :=
  pairs.foldl (fun t p => t.insert p.1 p.2) s

/-- The scope that binds each pair in turn: the last value of a repeated name wins,
at the place of its first occurrence. -/
def ofList (pairs : List (Name × V)) : Scope V := empty.insertAll pairs

/-- The bindings of `s` for the listed names, in the order of the list. Names that
`s` does not bind are left out. -/
def project (s : Scope V) (names : List Name) : Scope V :=
  ofList (names.filterMap fun n => (s.get? n).map fun v => (n, v))

/-- `s` overlaid with `t`: every binding of `t` is inserted into `s`. -/
def overlay (s t : Scope V) : Scope V := s.insertAll t.entries

/-! ### The two views: names and values -/

@[simp] theorem names_empty : (empty : Scope V).names = [] := rfl

@[simp] theorem get?_empty (n : Name) : (empty : Scope V).get? n = none := rfl

theorem names_insert (s : Scope V) (n : Name) (v : V) :
    (s.insert n v).names = if n ∈ s.names then s.names else s.names ++ [n] :=
  map_fst_place n v s.entries

theorem find?_place (n k : Name) (v : V) (entries : List (Name × V)) :
    find? k (place n v entries) = if k = n then some v else find? k entries := by
  induction entries with
  | nil =>
    by_cases h : k = n
    · simp [place, find?, h]
    · have hne : ¬ n = k := fun e => h e.symm
      simp [place, find?, h, hne]
  | cons entry rest ih =>
    obtain ⟨j, w⟩ := entry
    by_cases hj : j = n
    · by_cases h : k = n
      · simp [place, find?, hj, h]
      · have hne : ¬ n = k := fun e => h e.symm
        simp [place, find?, hj, h, hne]
    · by_cases hk : j = k
      · have h : ¬ k = n := fun e => hj (hk.trans e)
        simp [place, find?, hk, h]
      · simp [place, find?, hj, hk, ih]

/-- Inserting sets one name and no other. -/
theorem get?_insert (s : Scope V) (n k : Name) (v : V) :
    (s.insert n v).get? k = if k = n then some v else s.get? k :=
  find?_place n k v s.entries

@[simp] theorem insertAll_nil (s : Scope V) : s.insertAll [] = s := rfl

@[simp] theorem insertAll_cons (s : Scope V) (p : Name × V) (pairs : List (Name × V)) :
    s.insertAll (p :: pairs) = (s.insert p.1 p.2).insertAll pairs := rfl

theorem insertAll_append (s : Scope V) (ps qs : List (Name × V)) :
    s.insertAll (ps ++ qs) = (s.insertAll ps).insertAll qs :=
  List.foldl_append

end Scope

end Comprehension
