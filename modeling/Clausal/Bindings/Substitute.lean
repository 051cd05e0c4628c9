import Clausal.Bindings.Basic

/-!
# Substitution and occurrence

Substituting replaces every bound variable by its value, and the variables in that value again.
Where bindings lead from a variable through a compound term back to the variable there is no finite
result; then the answer is `none`. A path that meets more bound variables than there are entries has
met one of them twice, so the number of entries bounds the search for such a circle.
-/

namespace Clausal

namespace Term

mutual

/-- Replaces each variable by the term that `look` gives for it. -/
def subst? (look : String → Option Term) : Term → Option Term
  | .var x => look x
  | .compound f args =>
    match substAll? look args with
    | some args' => some (.compound f args')
    | none => none
  | t => some t

def substAll? (look : String → Option Term) : List Term → Option (List Term)
  | [] => some []
  | t :: ts =>
    match subst? look t with
    | none => none
    | some t' =>
      match substAll? look ts with
      | some ts' => some (t' :: ts')
      | none => none

end

mutual

/-- Whether some variable satisfies the test, from left to right up to the first one that does. -/
def anyVar? (test : String → Option Bool) : Term → Option Bool
  | .var x => test x
  | .compound _ args => anyVarAll? test args
  | _ => some false

def anyVarAll? (test : String → Option Bool) : List Term → Option Bool
  | [] => some false
  | t :: ts =>
    match anyVar? test t with
    | some false => anyVarAll? test ts
    | r => r

end

end Term

namespace Bindings

/-- The full value of a variable, if it is found within a number of steps through compound terms. -/
def expand? (b : Bindings) : Nat → String → Option Term
  | 0, _ => none
  | n + 1, x =>
    match b.deref x with
    | .compound f args =>
      match Term.substAll? (b.expand? n) args with
      | some args' => some (.compound f args')
      | none => none
    | t => some t

def value? (b : Bindings) (x : String) : Option Term :=
  b.expand? (b.count + 1) x

/-- Replaces every bound variable of a term by its full value. -/
def substitute? (b : Bindings) (t : Term) : Option Term :=
  t.subst? b.value?

def substituteAll? (b : Bindings) (ts : List Term) : Option (List Term) :=
  Term.substAll? b.value? ts

/-- Whether a variable occurs in the full value of another one, if that is settled within a number
of steps through compound terms. -/
def occursIn? (b : Bindings) (v : String) : Nat → String → Option Bool
  | 0, _ => none
  | n + 1, x =>
    match b.deref x with
    | .var y => some (v == y)
    | .compound _ args => Term.anyVarAll? (b.occursIn? v n) args
    | _ => some false

/-- Whether a variable occurs in a term seen through the bindings. -/
def occurs? (b : Bindings) (v : String) (t : Term) : Option Bool :=
  t.anyVar? (b.occursIn? v (b.count + 1))

end Bindings

end Clausal
