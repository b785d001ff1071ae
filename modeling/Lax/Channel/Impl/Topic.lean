/-!
This module contains topics: a group and a type in one key. Type 0 is the group as a whole, and key 0
is no topic.
-/

namespace Lax

structure Topic where
  key : UInt32
  deriving DecidableEq, Repr

namespace Topic

def ofParts (group type : UInt16) : Topic :=
  ⟨group.toUInt32 <<< 16 ||| type.toUInt32⟩

def getGroup (t : Topic) : UInt16 :=
  ((t.key >>> 16) &&& 0x0000FFFF).toUInt16

def getType (t : Topic) : UInt16 :=
  (t.key &&& 0x0000FFFF).toUInt16

def getGroupTopic (t : Topic) : Topic :=
  ofParts t.getGroup 0

def isValid (t : Topic) : Bool :=
  t.key > 0

def isMatch (t other : Topic) : Bool :=
  if t.getGroup = other.getGroup then
    if t.getType = 0 then true else t.getType = other.getType
  else
    false

end Topic
end Lax
