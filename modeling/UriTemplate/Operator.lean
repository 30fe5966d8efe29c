import UriTemplate.CharClass

/-!
# Operators

The eight operators of template expressions and the rules that each one sets:
what stands before the first value and between values, which characters a value
keeps, and whether values are written as `name=value`.
-/

namespace UriTemplate

/-- The operator of an expression. -/
inductive Operator where
  /-- No operator, as in `{x}`. -/
  | simple
  /-- `{+x}` -/
  | reserved
  /-- `{#x}` -/
  | fragment
  /-- `{.x}` -/
  | label
  /-- `{/x}` -/
  | path
  /-- `{;x}` -/
  | parameter
  /-- `{?x}` -/
  | query
  /-- `{&x}` -/
  | queryContinuation
deriving DecidableEq, Repr

namespace Operator

/-- Every operator, the one without a symbol first. -/
def all : List Operator :=
  [simple, reserved, fragment, label, path, parameter, query, queryContinuation]

theorem mem_all (op : Operator) : op ∈ all := by
  cases op <;> decide

/-- The operator that a character stands for. -/
def ofChar? : Char → Option Operator
  | '+' => some reserved
  | '#' => some fragment
  | '.' => some label
  | '/' => some path
  | ';' => some parameter
  | '?' => some query
  | '&' => some queryContinuation
  | _ => none

/-- What stands for the operator inside the braces. -/
def symbol : Operator → Text
  | simple => []
  | reserved => ['+']
  | fragment => ['#']
  | label => ['.']
  | path => ['/']
  | parameter => [';']
  | query => ['?']
  | queryContinuation => ['&']

theorem symbol_eq_singleton {op : Operator} {c : Char} : op.symbol = [c] ↔ ofChar? c = some op := by
  constructor
  · intro h
    cases op <;> simp_all [symbol, ofChar?] <;> subst h <;> rfl
  · intro h
    unfold ofChar? at h
    split at h <;> simp_all [symbol] <;> subst h <;> rfl

/-- What an expansion begins with. -/
def lead : Operator → Text
  | simple | reserved => []
  | op => op.symbol

/-- What stands between the values of an expression. -/
def separator : Operator → Char
  | simple | reserved | fragment => ','
  | label => '.'
  | path => '/'
  | parameter => ';'
  | query | queryContinuation => '&'

/-- Whether a value is written after its name, as `name=value`. -/
def isNamed : Operator → Bool
  | parameter | query | queryContinuation => true
  | _ => false

/-- Whether an empty value is written as its name alone, without `=`. -/
def dropsEmptyEquals : Operator → Bool
  | parameter => true
  | _ => false

/-- The characters that a value keeps. -/
def charClass : Operator → CharClass
  | reserved | fragment => .extended
  | _ => .unreserved

/-- The operator whose lead stands before the second and later variables. -/
def continuation : Operator → Operator
  | query => queryContinuation
  | op => op

end Operator

end UriTemplate
