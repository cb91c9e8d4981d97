/-!
# Tables keyed by text

A table is a list of entries in ascending order of their keys, each key once. The order of texts
is that of their code points, which is also the order of their UTF-8 bytes. `insert` replaces the
entry of a key that is present, and `get?_insert` says what a look-up finds after it.
-/

namespace BraceTemplate

/-- Entries in ascending order of their keys. -/
abbrev Table (α : Type) := List (String × α)

namespace Table

variable {α : Type}

def get? : Table α → String → Option α
  | [], _ => none
  | (k, v) :: rest, key => if k = key then some v else get? rest key

def insert : Table α → String → α → Table α
  | [], key, value => [(key, value)]
  | (k, v) :: rest, key, value =>
    if key = k then (key, value) :: rest
    else if key < k then (key, value) :: (k, v) :: rest
    else (k, v) :: insert rest key value

/-- The table of a list of entries, of which the last one for a key counts. -/
def ofList (entries : List (String × α)) : Table α :=
  entries.foldl (fun t e => insert t e.1 e.2) []

def keys (t : Table α) : List String :=
  t.map Prod.fst

def contains (t : Table α) (key : String) : Bool :=
  (get? t key).isSome

theorem get?_insert (t : Table α) (key : String) (value : α) (q : String) :
    get? (insert t key value) q = if key = q then some value else get? t q := by
  induction t with
  | nil => simp [insert, get?]
  | cons e rest ih =>
    obtain ⟨k, v⟩ := e
    by_cases h : key = k
    · subst h
      by_cases hq : key = q <;> simp [insert, get?, hq]
    · by_cases hlt : key < k
      · simp [insert, get?, h, hlt]
      · by_cases hk : k = q
        · subst hk
          simp [insert, get?, h, hlt]
        · simp [insert, get?, h, hlt, hk, ih]

end Table
end BraceTemplate
