import MlWasm.Host

/-!
Hosts with a log of their calls. What is said of logs holds of all of them, and every host is one of
them if nothing is written to the log.
-/

namespace MlWasm

/-- What was noted before a call of the host stays noted; the latest is first. -/
class Noting (H : Type) extends Host H where
  noted : H → List Event
  noted_printInt (n : Int32) (host : H) : noted host <:+ noted (printInt n host)
  noted_printBool (b : Bool) (host : H) : noted host <:+ noted (printBool b host)
  noted_printUnit (host : H) : noted host <:+ noted (printUnit host)
  noted_nowMs (host : H) : noted host <:+ noted (nowMs host).2

export Noting (noted)

instance : Noting Recorder where
  noted := Recorder.log
  noted_printInt _ _ := List.suffix_cons _ _
  noted_printBool _ _ := List.suffix_cons _ _
  noted_printUnit _ := List.suffix_cons _ _
  noted_nowMs _ := List.suffix_cons _ _

/-- Any host, with nothing in its log. -/
@[reducible] def Noting.nothing (H : Type) [Host H] : Noting H where
  noted _ := []
  noted_printInt _ _ := List.suffix_rfl
  noted_printBool _ _ := List.suffix_rfl
  noted_printUnit _ := List.suffix_rfl
  noted_nowMs _ := List.suffix_rfl

end MlWasm
