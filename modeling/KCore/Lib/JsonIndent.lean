import KCore.Lib.Json

/-!
# Indented serialisation

`dumpsIndentBy width` is `json.dumps` with an indentation of `width`, of which `Json.dumpsIndent`
is the case of four spaces (`dumpsIndent_eq`). `opened` is what stands before a part of
a container (`indentedBy_eq`).
-/

open Text

namespace Json

variable {N : Type*}

def newline (width level : Nat) : Str := '\n' :: List.replicate (width * level) ' '

/-- The parts of a container on lines of their own, `level` deep, or none. -/
def indentedBy (width level : Nat) (opening closing : Char) (parts : List Str) : Str :=
  if parts = [] then [opening, closing]
  else
    opening :: (newline width (level + 1) ++ (join (',' :: newline width (level + 1)) parts ++
      (newline width level ++ [closing])))

section

variable [Numeral N] (width : Nat)

mutual

/-- `json.dumps(v, indent=width)`, at a depth of `level`. -/
def dumpsIndentBy (level : Nat) : Json N → Str
  | null => "null".toList
  | bool true => "true".toList
  | bool false => "false".toList
  | num n => Numeral.repr n
  | str s => quote s
  | arr vs => indentedBy width level '[' ']' (indentItemsBy (level + 1) vs)
  | obj es => indentedBy width level '\x7b' '\x7d' (indentEntriesBy (level + 1) es)

def indentItemsBy (level : Nat) : List (Json N) → List Str
  | [] => []
  | v :: vs => dumpsIndentBy level v :: indentItemsBy level vs

def indentEntriesBy (level : Nat) : List (Str × Json N) → List Str
  | [] => []
  | (k, v) :: es => (quote k ++ (": ".toList ++ dumpsIndentBy level v)) :: indentEntriesBy level es

end

theorem dumpsIndentBy_arr (level : Nat) (vs : List (Json N)) :
    dumpsIndentBy width level (.arr vs) = indentedBy width level '[' ']' (indentItemsBy width (level + 1) vs) := rfl

theorem dumpsIndentBy_obj (level : Nat) (es : List (Str × Json N)) :
    dumpsIndentBy width level (.obj es) = indentedBy width level '\x7b' '\x7d' (indentEntriesBy width (level + 1) es) :=
  rfl

theorem indentItemsBy_eq_map (level : Nat) (vs : List (Json N)) :
    indentItemsBy width level vs = vs.map (dumpsIndentBy width level) := by
  induction vs with
  | nil => rfl
  | cons v vs ih => rw [indentItemsBy, ih, List.map_cons]

/-- An entry of an object. -/
def entry (level : Nat) (e : Str × Json N) : Str := quote e.1 ++ (": ".toList ++ dumpsIndentBy width level e.2)

theorem indentEntriesBy_eq_map (level : Nat) (es : List (Str × Json N)) :
    indentEntriesBy width level es = es.map (entry width level) := by
  induction es with
  | nil => rfl
  | cons e es ih =>
    rw [indentEntriesBy, ih, List.map_cons]
    rfl

mutual

theorem dumpsIndent_eq (level : Nat) : ∀ v : Json N, dumpsIndent level v = dumpsIndentBy 4 level v
  | null | bool true | bool false | num _ | str _ => rfl
  | arr vs => congrArg (indented level '[' ']') (indentItems_eq (level + 1) vs)
  | obj es => congrArg (indented level '\x7b' '\x7d') (indentEntries_eq (level + 1) es)

theorem indentItems_eq (level : Nat) : ∀ vs : List (Json N), indentItems level vs = indentItemsBy 4 level vs
  | [] => rfl
  | v :: vs => congrArg₂ List.cons (dumpsIndent_eq level v) (indentItems_eq level vs)

theorem indentEntries_eq (level : Nat) :
    ∀ es : List (Str × Json N), indentEntries level es = indentEntriesBy 4 level es
  | [] => rfl
  | (k, v) :: es =>
    congrArg₂ List.cons (congrArg (fun t => quote k ++ (": ".toList ++ t)) (dumpsIndent_eq level v))
      (indentEntries_eq level es)

end

/-- A container up to the part after `parts`. -/
def opened (level : Nat) (opening : Char) (parts : List Str) : Str :=
  opening :: (newline width (level + 1) ++ parts.flatMap (· ++ ',' :: newline width (level + 1)))

theorem join_append_cons (sep x : Str) (bs : List Str) : ∀ as : List Str,
    join sep (as ++ x :: bs) = as.flatMap (· ++ sep) ++ (x ++ bs.flatMap (sep ++ ·))
  | [] => by
    induction bs generalizing x with
    | nil => simp
    | cons b bs ih =>
      have ih := ih b
      rw [List.nil_append] at ih ⊢
      rw [join_cons_cons, ih]
      simp
  | [a] => by
    have ih := join_append_cons sep x bs []
    rw [List.nil_append] at ih
    rw [List.singleton_append, join_cons_cons, ih]
    simp
  | a :: a' :: as => by
    have ih := join_append_cons sep x bs (a' :: as)
    rw [List.cons_append] at ih
    rw [List.cons_append, List.cons_append, join_cons_cons, ih]
    simp

theorem indentedBy_eq (level : Nat) (opening closing : Char) (as : List Str) (x : Str) (bs : List Str) :
    opened width level opening as ++ x <+: indentedBy width level opening closing (as ++ x :: bs) := by
  rw [indentedBy, if_neg (by simp), join_append_cons, opened]
  exact ⟨bs.flatMap (',' :: newline width (level + 1) ++ ·) ++ (newline width level ++ [closing]), by simp⟩

end

end Json
