import Superliquid.Hotstuff.Message

namespace Superliquid

namespace MessageWindow

-- The operations on the vector of views as the window performs them, with every index checked.
namespace InPlace

-- `Vec::drain(0..n)`.
def drain (xs : List α) (n : Nat) : Checked (List α) :=
  if n ≤ xs.length then .ok (xs.drop n) else .error .outOfBounds

-- `Vec::insert`.
def insert (xs : List α) (index : Nat) (x : α) : Checked (List α) :=
  if index ≤ xs.length then .ok (xs.insertIdx index x) else .error .outOfBounds

-- The loop that fills the gap between the last view and a new one.
def pad (messages : List (List HotStuffMessage)) (index : Nat) : List (List HotStuffMessage) :=
  if messages.length < index then pad (messages ++ [[]]) index else messages
termination_by index - messages.length

def pruneBeforeView (w : MessageWindow) (view : Nat) : Checked MessageWindow := do
  if view < w.lowestView then
    return w
  else if (← U64.add w.lowestView w.messages.length) < view then
    return { messages := [], lowestView := view }
  else
    let toRemove ← Checked.sub view w.lowestView
    return { messages := ← drain w.messages toRemove, lowestView := view }

def push (w : MessageWindow) (msg : HotStuffMessage) : Checked (Bool × MessageWindow) := do
  if msg.getViewNumber < w.lowestView then
    return (false, w)
  else
    let index ← Checked.sub msg.getViewNumber w.lowestView
    match w.messages[index]? with
    | some vector =>
      return (true, { w with messages := w.messages.set index (vector ++ [msg]) })
    | none =>
      return (true, { w with messages := ← insert (pad w.messages index) index [msg] })

end InPlace

end MessageWindow

-- What is left of the views, and of the view that is being listed.
structure MessageWindowIter where
  outer : List (List HotStuffMessage)
  inner : Option (List HotStuffMessage)

def MessageWindow.InPlace.iter (w : MessageWindow) : MessageWindowIter where
  outer := w.messages.tail
  inner := w.messages.head?

namespace MessageWindowIter

-- The loop of `next`. It ends as soon as there is a message, or no view is left.
def advance : List (List HotStuffMessage) → Option (List HotStuffMessage) → Option HotStuffMessage × MessageWindowIter
  | outer, some (msg :: inner) => (some msg, { outer, inner := some inner })
  | vector :: outer, _         => advance outer (some vector)
  | [], _                      => (none, { outer := [], inner := none })

def next (it : MessageWindowIter) : Option HotStuffMessage × MessageWindowIter :=
  advance it.outer it.inner

-- What the next `n` calls of `next` return.
def nexts : Nat → MessageWindowIter → List (Option HotStuffMessage)
  | 0, _      => []
  | n + 1, it => it.next.1 :: nexts n it.next.2

end MessageWindowIter
end Superliquid
