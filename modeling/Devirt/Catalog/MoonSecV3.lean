import Devirt.Catalog.Shape

set_option autoImplicit false

/-! # The catalog of handler shapes

Every known shape of a handler of the MoonSec V3 virtual machine, by opcode in the order of the
numbering.  No two shapes have the same fingerprint. -/

namespace Devirt

namespace Catalog

/-- The shapes of one opcode. -/
def shapesOf (op : Opcode) (shapes : List (String × Rule)) : List Shape :=
  shapes.map fun s => ⟨s.1, op, s.2⟩

def moonSecV3 : Catalog :=
  ⟨[
    shapesOf .move [("91909190", .keep)],
    shapesOf .loadK [("1419090", .constIndexB)],
    shapesOf .loadBool
      [("91902690", .keep),
       ("91902690291529", .skipNext)],
    shapesOf .loadNil [("13909091", .keep)],
    shapesOf .getUpval [("91909290", .keep)],
    shapesOf .getGlobal [("91909390", .constIndexB)],
    shapesOf .getTable
      [("9190991909190", .keep),
       ("91909919090", .constC)],
    shapesOf .setGlobal [("93909190", .constIndexB)],
    shapesOf .setUpval [("92909190", .keep)],
    shapesOf .setTable
      [("9919091909190", .keep),
       ("99190919090", .constC),
       ("99190909190", .constB),
       ("991909090", .constBC)],
    shapesOf .newTable [("919033", .keep)],
    shapesOf .selfOp
      [("909190911591990", .constC),
       ("90919091159199190", .keep)],
    shapesOf .add
      [("91901591909190", .keep),
       ("919015919090", .constC),
       ("919015909190", .constB),
       ("9190159090", .constBC)],
    shapesOf .sub
      [("91901691909190", .keep),
       ("919016919090", .constC),
       ("919016909190", .constB),
       ("9190169090", .constBC)],
    shapesOf .mul
      [("91901791909190", .keep),
       ("919017919090", .constC),
       ("919017909190", .constB),
       ("9190179090", .constBC)],
    shapesOf .div
      [("91901891909190", .keep),
       ("919018919090", .constC),
       ("919018909190", .constB),
       ("9190189090", .constBC)],
    shapesOf .mod
      [("91901991909190", .keep),
       ("919019919090", .constC),
       ("919019909190", .constB),
       ("9190199090", .constBC)],
    shapesOf .pow
      [("91902091909190", .keep),
       ("919020919090", .constC),
       ("919020909190", .constB),
       ("9190209090", .constBC)],
    shapesOf .unm [("9190319190", .keep)],
    shapesOf .not [("9190349190", .keep)],
    shapesOf .len [("9190289190", .keep)],
    shapesOf .concat [("909113159032919190", .keep)],
    shapesOf .jmp [("2990", .jump)],
    shapesOf .eq
      [("101225919091902915292990", .compare false false 0),
       ("1012259190902915292990", .compare false true 0),
       ("1012259091902915292990", .compare true false 0),
       ("10122590902915292990", .compare true true 0),
       ("101226919091902915292990", .compare false false 1),
       ("1012269190902915292990", .compare false true 1),
       ("1012269091902915292990", .compare true false 1),
       ("10122690902915292990", .compare true true 1),
       ("2936352591909190901529", .compare false false 1)],
    shapesOf .lt
      [("101221919091902915292990", .compare false false 0),
       ("1012219091902915292990", .compare true false 0),
       ("1012219190902915292990", .compare false true 0),
       ("10122190902915292990", .compare true true 0),
       ("101221919091902990291529", .compare false false 1),
       ("1012219091902990291529", .compare true false 1),
       ("1012219190902990291529", .compare false true 1),
       ("10122190902990291529", .compare true true 1)],
    shapesOf .le
      [("101223919091902915292990", .compare false false 0),
       ("1012239091902915292990", .compare true false 0),
       ("1012239190902915292990", .compare false true 0),
       ("10122390902915292990", .compare true true 0),
       ("101223919091902990291529", .compare false false 1),
       ("1012239190902990291529", .compare false true 1),
       ("1012239091902990291529", .compare true false 1),
       ("10122390902990291529", .compare true true 1)],
    shapesOf .test
      [("101291902915292990", .test 0),
       ("10123491902915292990", .test 1)],
    shapesOf .testSet
      [("9190101229152991902990", .testSet 0),
       ("919010123429152991902990", .testSet 1)],
    shapesOf .call
      [("149190", .keep),
       ("909114919115", .keep),
       ("9091149114511590", .countB),
       ("9014919115", .keep),
       ("90149114511590", .countB),
       ("9091149114511530", .keep),
       ("903314919115139015919", .countC),
       ("90911491", .keep),
       ("90141491301615133015919", .keep),
       ("901414919115301615133015919", .countB),
       ("9014149114511590301615133015919", .countB),
       ("90149114511530", .keep),
       ("9033149114511590139015919", .countBC),
       ("9033149114511530139015919", .countC),
       ("90331491901315919", .countC),
       ("9014149114511530301615133015919", .keep)],
    shapesOf .tailCall
      [("9027149114511590", .countB),
       ("9027149114511530", .keep),
       ("27149190", .keep)],
    shapesOf .ret
      [("27", .keep),
       ("279190", .keep),
       ("9027145130", .keep),
       ("902714511590", .returnCount),
       ("9027919115", .keep)],
    shapesOf .forLoop [("909115159191101122102391152990911524911529909115", .jump)],
    shapesOf .forPrep [("909191151011122210122291152990911521911529909115", .loopPrep)],
    shapesOf .tForLoop [("909015331491911591139115991012912990291529", .clearB)],
    shapesOf .setList
      [("909113153014691", .keep),
       ("909113159014691", .listCount)],
    shapesOf .close [("3313289132899910352512490999", .keep)],
    shapesOf .closure
      [("990331473333927999999913902915299291012259916331991633299152891901483", .keep),
       ("91901489903", .keep)],
    shapesOf .varArg
      [("903016151330941691", .keep),
       ("909013919416", .countB)]].flatten⟩

theorem nodup_fingerprints : (moonSecV3.shapes.map (·.fingerprint)).Nodup := by decide +kernel

end Catalog

end Devirt
