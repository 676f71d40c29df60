import Mathlib.Order.Basic
import Mathlib.Data.List.Basic

/-
Module: ForkscanRegistry.Avl.Node
Layer: Model
Purpose: The node record of the ordered registry (`avl_node_t` of `forkscan-changed/avl.h`) and
  the internal helpers of `avl.c` that act on one node: `height`, `max_int`, `new_node`,
  `right_rotate`, `left_rotate` and `get_balance`. Nodes are exclusively owned by their parent
  slot (the tree never shares a node), so a pointer tree is modelled by an inductive value and an
  in-place relinking by the rebuilt value. A rotation dereferences the child it lifts; on a NULL
  child the C code has undefined behaviour, which the model reports as `none`.
Trusted boundary: none
Main exports: AvlNode, AvlNode.height, maxInt, newNode, rightRotate, leftRotate, getBalance,
  AvlNode.inorder, rightRotate_inorder, leftRotate_inorder
-/

namespace ForkscanRegistry.Avl

/-!
The C node carries a `size_t` key, an `int` height and an `int` marked flag that only ever holds
0 or 1. Keys are compared and never computed with, so they are natural numbers; heights are
natural numbers because every height the code stores is `1 + max` of two heights (the bound that
rules out an `int` overflow is `HeightBound`); the flag is a `Bool` with `true` for 1.
-/

/-- `avl_node_t`: `null` is the NULL pointer, `node key height marked left right` an allocated
node with its five fields in source order. -/
inductive AvlNode where
  | null
  | node (key : Nat) (height : Nat) (marked : Bool) (left right : AvlNode)
deriving Repr, DecidableEq, Inhabited

namespace AvlNode

/-- `height(node)`: the stored height field, 0 for NULL. -/
def height : AvlNode → Nat
  | null => 0
  | node _ height _ _ _ => height

/-- `node->key`, read only where the code has already established that `node` is not NULL
(`left_ne_null_of_balance`); the NULL case is never taken. -/
def key : AvlNode → Nat
  | null => 0
  | node key _ _ _ _ => key

/-- The `(key, marked)` pairs in the order `inorder_traverse` visits the nodes: what a visitor
passed to `avl_inorder` observes. -/
def inorder : AvlNode → List (Nat × Bool)
  | null => []
  | node key _ marked left right => left.inorder ++ (key, marked) :: right.inorder

/-- The keys of the tree in in-order. -/
def keys (t : AvlNode) : List Nat := t.inorder.map Prod.fst

/-- The number of allocated nodes. -/
def size : AvlNode → Nat
  | null => 0
  | node _ _ _ left right => left.size + 1 + right.size

@[simp] theorem height_null : null.height = 0 := rfl
@[simp] theorem height_node (k h : Nat) (m : Bool) (l r : AvlNode) :
    (node k h m l r).height = h := rfl
@[simp] theorem key_node (k h : Nat) (m : Bool) (l r : AvlNode) :
    (node k h m l r).key = k := rfl
@[simp] theorem inorder_null : null.inorder = [] := rfl
@[simp] theorem inorder_node (k h : Nat) (m : Bool) (l r : AvlNode) :
    (node k h m l r).inorder = l.inorder ++ (k, m) :: r.inorder := rfl
@[simp] theorem size_null : null.size = 0 := rfl
@[simp] theorem size_node (k h : Nat) (m : Bool) (l r : AvlNode) :
    (node k h m l r).size = l.size + 1 + r.size := rfl

theorem keys_node (k h : Nat) (m : Bool) (l r : AvlNode) :
    (node k h m l r).keys = l.keys ++ k :: r.keys := by
  simp [keys]

theorem length_inorder (t : AvlNode) : t.inorder.length = t.size := by
  induction t with
  | null => rfl
  | node _ _ _ l r ihl ihr => simp [ihl, ihr]; omega

end AvlNode

open AvlNode

/-- `max_int(a, b)`. -/
def maxInt (a b : Nat) : Nat := if a > b then a else b

@[simp] theorem maxInt_eq_max (a b : Nat) : maxInt a b = max a b := by
  unfold maxInt
  split <;> omega

/-- `new_node(key)`: a fresh leaf of height 1, unmarked. Allocation failure exits the process
and is not modelled. -/
def newNode (key : Nat) : AvlNode := node key 1 false null null

/-- `right_rotate(y)`: `x = y->left` becomes the root, `x->right` moves under `y`, and the two
heights are recomputed, `y`'s first because `x`'s reads it. -/
def rightRotate : AvlNode → Option AvlNode
  | node yKey _ yMarked (node xKey _ xMarked xLeft t2) yRight =>
      let y := node yKey (maxInt t2.height yRight.height + 1) yMarked t2 yRight
      some (node xKey (maxInt xLeft.height y.height + 1) xMarked xLeft y)
  | _ => none

/-- `left_rotate(x)`: the mirror image of `right_rotate`. -/
def leftRotate : AvlNode → Option AvlNode
  | node xKey _ xMarked xLeft (node yKey _ yMarked t2 yRight) =>
      let x := node xKey (maxInt xLeft.height t2.height + 1) xMarked xLeft t2
      some (node yKey (maxInt x.height yRight.height + 1) yMarked x yRight)
  | _ => none

/-- `get_balance(node)`: `height(left) - height(right)` as a C `int`, 0 for NULL. -/
def getBalance : AvlNode → Int
  | null => 0
  | node _ _ _ left right => (left.height : Int) - right.height

@[simp] theorem getBalance_node (k h : Nat) (m : Bool) (l r : AvlNode) :
    getBalance (node k h m l r) = (l.height : Int) - r.height := rfl

@[simp] theorem rightRotate_node_node (yk yh : Nat) (ym : Bool) (xk xh : Nat) (xm : Bool)
    (xl t2 yr : AvlNode) :
    rightRotate (node yk yh ym (node xk xh xm xl t2) yr) =
      some (node xk (max xl.height (max t2.height yr.height + 1) + 1) xm xl
        (node yk (max t2.height yr.height + 1) ym t2 yr)) := by
  simp [rightRotate]

@[simp] theorem leftRotate_node_node (xk xh : Nat) (xm : Bool) (yk yh : Nat) (ym : Bool)
    (xl t2 yr : AvlNode) :
    leftRotate (node xk xh xm xl (node yk yh ym t2 yr)) =
      some (node yk (max (max xl.height t2.height + 1) yr.height + 1) ym
        (node xk (max xl.height t2.height + 1) xm xl t2) yr) := by
  simp [leftRotate]

/-- A rotation relinks nodes without moving any `(key, marked)` pair in the in-order walk. -/
theorem rightRotate_inorder {t t' : AvlNode} (rotated : rightRotate t = some t') :
    t'.inorder = t.inorder := by
  unfold rightRotate at rotated
  split at rotated
  · cases rotated
    simp
  · cases rotated

theorem leftRotate_inorder {t t' : AvlNode} (rotated : leftRotate t = some t') :
    t'.inorder = t.inorder := by
  unfold leftRotate at rotated
  split at rotated
  · cases rotated
    simp
  · cases rotated

/-- Under `balance > 1` the left child has a positive height, so `node->left->key` in
`insert_node` never dereferences NULL; the right child likewise under `balance < -1`. -/
theorem left_ne_null_of_balance {k h : Nat} {m : Bool} {l r : AvlNode}
    (heavy : getBalance (node k h m l r) > 1) : l ≠ null := by
  rintro rfl
  simp at heavy
  omega

theorem right_ne_null_of_balance {k h : Nat} {m : Bool} {l r : AvlNode}
    (heavy : getBalance (node k h m l r) < -1) : r ≠ null := by
  rintro rfl
  simp at heavy
  omega

end ForkscanRegistry.Avl
