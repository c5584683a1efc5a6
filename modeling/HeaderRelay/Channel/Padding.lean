import HeaderRelay.Json.Basic

/-!
# Padding

Messages are encrypted, and the length of a ciphertext shows the length of the message. So a message
is filled to a whole number of blocks by one more field of spaces in the object under its first key.
It stays as it is when it fills its block already, when the gap is too small for the field or for the
configured minimum, when the field is there already, or when there is no such object.
-/
namespace HeaderRelay.Channel

def paddingKey : String := "p"

def spaces (n : Nat) : String := String.ofList (List.replicate n ' ')

/-- The bytes that an empty padding field adds to an object: quotes, key, colon, and a comma when the
object has other fields. -/
def paddingCost (inner : List (String × Json)) : Nat := if inner.isEmpty then 6 else 7

/-- Adds a padding field of `missing` bytes to the object under the first key, if it fits. -/
def fill (missing : Nat) : Json → Json
  | .obj ((key, .obj inner) :: rest) =>
    if inner.any fun f => f.1 == paddingKey then .obj ((key, .obj inner) :: rest)
    else if missing < paddingCost inner then .obj ((key, .obj inner) :: rest)
    else
      .obj ((key, .obj (inner ++ [(paddingKey, .str (spaces (missing - paddingCost inner)))])) :: rest)
  | msg => msg

/-- Fills a message to whole blocks. Mirrors `pad_message`. -/
def pad (blockSize minPadding : Nat) (msg : Json) : Json :=
  if blockSize = 0 then msg
  else
    let overhang := msg.size % blockSize
    if overhang = 0 then msg
    else if blockSize - overhang < minPadding then msg
    else fill (blockSize - overhang) msg

end HeaderRelay.Channel
