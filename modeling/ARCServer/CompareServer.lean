import ARCServer.FrameCodec
import ARCServer.RequestHandlers

/-! The compare server's answers to its three messages. -/

namespace ARCServer.CompareServer

open InterleavedPrograms RequestHandlers MachineIntegers
open FrameCodec (okReply)

def noReply : List Byte := [0x6e, 0x6f]

/-- What the three handlers have in common; `engines` tells whether the pointer is set. -/
def onStringMessage (engines : Bool) (handler : Handler Int) : Handler (List Byte) :=
  if engines then do
    let ret ← handler
    return if ret = 0 then okReply else noReply
  else return noReply

def onStringMessageComp (engines : Bool) (data : List Byte) (ip : String) : Handler (List Byte) :=
  onStringMessage engines (compareFace data ip)

def onStringMessageAddu (engines : Bool) (data : List Byte) (id : Int) : Handler (List Byte) :=
  onStringMessage engines (addFeature data id)

def onStringMessageAddg (engines : Bool) (data : List Byte) (id : Int) : Handler (List Byte) :=
  onStringMessage engines (addFeatureG data id)

def message (engines : Bool) : Request → Handler (List Byte)
  | .compareFace data ip => onStringMessageComp engines data ip
  | .addFeature data id => onStringMessageAddu engines data id
  | .addFeatureG data id => onStringMessageAddg engines data id

theorem message_eq (engines : Bool) (request : Request) :
    message engines request = onStringMessage engines request.handler := by
  cases request <;> rfl

end ARCServer.CompareServer
