import ProxyNode.Spec.Op

/-! Row-shaped ops: a table, a primary key and either a full column image or a delete. -/

namespace ProxyNode

open Wire

/-- What is used of floating-point values: the `Debug` text, and the integer a value equals. Equality
on `R` stands for `==` of `f64`. -/
class SqlReal (R : Type) where
  text : R → String
  int? : R → Option ℤ

/-- The store a relational row store claims in the shared log. -/
def rowStoreId : StoreId := ⟨ascii "proxydb", by decide +kernel⟩

def originLocal : ℤ := 1

def originRemote : ℤ := 0

/-- A relational value; `R` is the type of reals. -/
inductive Scalar (R : Type)
  | null
  | int (v : ℤ)
  | real (v : R)
  | text (v : String)
  | blob (v : List Byte)
deriving DecidableEq

def Scalar.render {R : Type} [SqlReal R] : Scalar R → String
  | null => ""
  | int v => toString v
  | real v => SqlReal.text v
  | text v => v
  | blob v => encodeHex v

structure KeyField (R : Type) where
  col : String
  val : Scalar R
deriving DecidableEq

structure Column (R : Type) where
  name : String
  value : Scalar R
deriving DecidableEq

inductive Mutation (R : Type)
  | upsert (columns : List (Column R))
  | delete
deriving DecidableEq

structure ProxyDbOp (R : Type) where
  table : String
  key : List (KeyField R)
  mutation : Mutation R
deriving DecidableEq

def ProxyDbOp.rowPk {R : Type} [SqlReal R] (op : ProxyDbOp R) : String :=
  "\x1f".intercalate (op.key.map (·.val.render))

/-- Names are interpolated into statements: ASCII letters, digits and underscores only. -/
def isValidIdent (ident : String) : Bool :=
  !ident.toList.isEmpty && ident.toList.all fun c => c.isAlphanum || c == '_'

end ProxyNode
