import Zuri.Float.Binary64

/-!
Zuri values and what compiled code holds in a machine register.

Objects are named, not placed: a reference says which kind of object it is and
which one, and a collection that moves the object leaves its name alone. The
kind of an object never changes, so it is part of the name; what the object
holds is memory and belongs to the machine's state.
-/

namespace Zuri.Jit

/-- The kinds of heap object, with what makes two objects of a kind different
for a guard: an instance's class, a closure's function and a native's code. -/
inductive Kind
  | str
  | bytes
  | bigint
  | list
  | dict
  | func
  | boundMethod
  | closure (proto : Nat)
  | upvalue
  | native (code : Nat)
  | classObj
  | instance_ (cls : Nat)
  | range
  | file
  | moduleObj
  | moduleBinding
  | ptr
deriving DecidableEq, Repr

/-- The tag an object of this kind starts with. -/
def Kind.tag : Kind → Nat
  | str => 0
  | bytes => 1
  | bigint => 2
  | list => 3
  | dict => 4
  | func => 5
  | boundMethod => 6
  | closure _ => 7
  | upvalue => 8
  | native _ => 9
  | classObj => 10
  | instance_ _ => 11
  | range => 12
  | file => 13
  | moduleObj => 14
  | moduleBinding => 15
  | ptr => 16

structure Ref where
  kind : Kind
  id : Nat
deriving DecidableEq, Repr

/-- Where a raw pointer points: at an object or at an element buffer. -/
inductive Ptr
  | obj (r : Ref)
  | buf (id : Nat)
deriving DecidableEq, Repr

/-- A NaN-boxed value. `noValue` is the object at a null address, which no Zuri
value is, and `address` a raw pointer taken for a value. -/
inductive Value
  | num (x : F64)
  | nil
  | bool (b : Bool)
  | obj (r : Ref)
  | noValue
  | address (p : Ptr)
deriving DecidableEq, Repr

/-- How a value is represented in a machine register. -/
inductive Ty
  | tagged
  | f64
  | i64
  | bool
  | ptr
deriving DecidableEq, Repr

/-- What a machine register holds. -/
inductive Val
  | tagged (v : Value)
  | f64 (x : F64)
  | i64 (n : BitVec 64)
  | bool (b : Bool)
  | ptr (p : Ptr)
deriving DecidableEq, Repr

namespace Val

def ty : Val → Ty
  | tagged _ => .tagged
  | f64 _ => .f64
  | i64 _ => .i64
  | bool _ => .bool
  | ptr _ => .ptr

/-- A register's contents as a tagged value, whatever its representation. -/
def taggedOf : Val → Value
  | tagged v => v
  | f64 x => .num x
  | i64 n => .num (.ofInt n.toInt)
  | bool b => .bool b
  | ptr p => .address p

def asF64 : Val → F64
  | f64 x => x
  | tagged (.num x) => x
  | _ => .zero

def asI64 : Val → BitVec 64
  | i64 n => n
  | _ => 0#64

def asBool : Val → Bool
  | bool b => b
  | _ => false

/-- The object a register names, as a pointer or as a value. -/
def asRef : Val → Ref
  | ptr (.obj r) => r
  | tagged (.obj r) => r
  | _ => ⟨.ptr, 0⟩

def asBuf : Val → Nat
  | ptr (.buf b) => b
  | _ => 0

end Val

end Zuri.Jit
