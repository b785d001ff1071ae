import Lax.Net.BitsSerializer.Impl.Schema

/-!
This module contains what `BITS_MSG_BODY` makes of the members that `BITS_SERIALIZE` lists.
-/

namespace Lax
namespace BitsSerializer

structure Message (t : Ty) where
  length : BitVec 32 := 0
  topic : BitVec 32 := 0
  members : Val t
  readerError : Option ReaderError := none

namespace Message

variable {t : Ty}

-- The topic is the topic key of the class.
def pack (m : Message t) (topicKey : BitVec 32) : List UInt8 :=
  writeBytes (w := 4) m.length ++ (writeBytes (w := 4) topicKey ++ serialize t m.members)

def readFields (t : Ty) : Input ReaderError (Message t) := do
  let length ← readBytes 4
  let topic ← readBytes 4
  let members ← deserialize t
  pure { length, topic, members }

-- Whatever is read gets into the message, also if `false` is returned.
def unpack (t : Ty) (buf : List UInt8) (iter len : Nat) : Message t × Bool :=
  let (m, reader) := Reader.run (readFields t) (.ctor buf iter len)
  ({ m with readerError := reader.error }, reader.isCompletedSuccessfully)

-- For how many elements it makes room in the containers.
def unpackResized (t : Ty) (buf : List UInt8) (iter len : Nat) : Nat :=
  Reader.resized (readFields t) (.ctor buf iter len)

end Message

end BitsSerializer
end Lax
