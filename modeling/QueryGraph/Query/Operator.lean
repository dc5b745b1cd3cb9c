namespace QueryGraph

/-!
# Operators of a query

* `Comparison`: the comparisons of filter and join conditions, with their symbols.
* `JoinType`: the ways to join two inputs.
* `AggregateFunction`: the functions of aggregate nodes.
-/

/-- A comparison in a filter or join condition. -/
inductive Comparison where
  | eq
  | ne
  | lt
  | le
  | gt
  | ge
  | like
  | notLike
  | inSet
  | notInSet
  | isNull
  | isNotNull
deriving DecidableEq, Inhabited

namespace Comparison

/-- The comparison as it stands in a query. -/
def symbol : Comparison → String
  | .eq => "="
  | .ne => "!="
  | .lt => "<"
  | .le => "<="
  | .gt => ">"
  | .ge => ">="
  | .like => "LIKE"
  | .notLike => "NOT LIKE"
  | .inSet => "IN"
  | .notInSet => "NOT IN"
  | .isNull => "IS NULL"
  | .isNotNull => "IS NOT NULL"

/-- Unary comparisons have no right-hand side. -/
def isUnary : Comparison → Bool
  | .isNull | .isNotNull => true
  | _ => false

/-- Set comparisons have a list in parentheses on the right-hand side. -/
def isSet : Comparison → Bool
  | .inSet | .notInSet => true
  | _ => false

end Comparison

/-- A way to join two inputs. -/
inductive JoinType where
  | inner
  | left
  | right
  | full
deriving DecidableEq, Inhabited

namespace JoinType

/-- The keywords of a join. -/
def keyword : JoinType → String
  | .inner => "INNER JOIN"
  | .left => "LEFT JOIN"
  | .right => "RIGHT JOIN"
  | .full => "FULL OUTER JOIN"

/-- The name of a join. -/
def name : JoinType → String
  | .inner => "inner"
  | .left => "left"
  | .right => "right"
  | .full => "full"

end JoinType

/-- A function of an aggregate node. -/
inductive AggregateFunction where
  | count
  | countDistinct
  | sum
  | avg
  | min
  | max
deriving DecidableEq

namespace AggregateFunction

/-- Only a plain count can do without a field. -/
def requiresField : AggregateFunction → Bool
  | .count => false
  | _ => true

/-- What stands before the argument. -/
def opening : AggregateFunction → String
  | .count => "count("
  | .countDistinct => "count(DISTINCT "
  | .sum => "sum("
  | .avg => "avg("
  | .min => "min("
  | .max => "max("

/-- The function applied to a field, or to whole rows if there is none. -/
def apply (f : AggregateFunction) (field : Option String) : String :=
  f.opening ++ field.getD "*" ++ ")"

end AggregateFunction

end QueryGraph
