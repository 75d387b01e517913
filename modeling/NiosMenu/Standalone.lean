import NiosMenu.Firmware

/-!
# The stand-alone firmware

The copy of the program under "Code in C": the same menu without any network
traffic. It is edited separately, so every function is stated again from its text.
-/
namespace Standalone

open Firmware Reactive

def BUTTON_UP : Word := 11#32
def BUTTON_DOWN : Word := 7#32
def SELECT : Word := 13#32

def opcao1 : List Byte := cChars ['c', 'a', 'd', 'a', 's', 't', 'r', 'o'] ++ [multichar '/' '0']
def opcao2 : List Byte := cChars ['l', 'i', 's', 't', 'a', 'g', 'e', 'm'] ++ [multichar '/' '0']
def opcao3 : List Byte := cChars ['r', 'e', 'm', 'o', 'c', 'a', 'o'] ++ [multichar '/' '0']
def opcao4 : List Byte := cChars ['c', 'r', 'e', 'd', 'i', 't', 'o', 's'] ++ [multichar '/' '0']
def opcao5 : List Byte := cChars ['s', 'i', 's', 't', 'e', 'm', 'a', 's'] ++ [multichar '/' '0']

def answer1 : List Byte := cChars ['a', 'n', 's', 'w', 'e', 'r', ' ', '1'] ++ [multichar '/' '0']
def answer2 : List Byte := cChars ['a', 'n', 's', 'w', 'e', 'r', ' ', '2'] ++ [multichar '/' '0']
def answer3 : List Byte := cChars ['a', 'n', 's', 'w', 'e', 'r', ' ', '3'] ++ [multichar '/' '0']
def answer4 : List Byte := cChars ['a', 'n', 's', 'w', 'e', 'r', ' ', '4'] ++ [multichar '/' '0']
def answer5 : List Byte := cChars ['a', 'n', 's', 'w', 'e', 'r', ' ', '5'] ++ [multichar '/' '0']

def initializeLcd : List Stmt := [
  usleep 15000,
  altCiLcd0 0x0 0x38,
  usleep 4100,
  altCiLcd0 0x0 0x38,
  usleep 100,
  altCiLcd0 0x0 0x38,
  usleep 5000,
  altCiLcd0 0x0 0x38,
  usleep 100,
  altCiLcd0 0x0 0x08,
  usleep 100,
  altCiLcd0 0x0 0x0C,
  usleep 100,
  altCiLcd0 0x0 0x06,
  usleep 100,
  altCiLcd0 0x0 0x02,
  usleep 2000,
  altCiLcd0 0x0 0x01,
  usleep 2000]

def imprime (opcao : List Byte) (size : Int) : List Stmt :=
  [usleep 2000,
   altCiLcd0 0x0 0x02,
   usleep 2000,
   altCiLcd0 0x0 0x01] ++
  forLoop (size - 1) (fun i => [usleep 2000, altCiLcd0 0x1 (charAt opcao i)]) ++
  [usleep 2000,
   altCiLcd0 0x0 0x00]

def onLed (count : Int) : List Stmt :=
  match count with
  | 0 => [iowrLeds 7]
  | 1 => [iowrLeds 11]
  | 2 => [iowrLeds 13]
  | 3 => [iowrLeds 14]
  | 4 => [iowrLeds (~~~15)]
  | _ => []

def onMessage (count : Int) : List Stmt :=
  match count with
  | 0 => imprime opcao1 (sizeof opcao1)
  | 1 => imprime opcao2 (sizeof opcao2)
  | 2 => imprime opcao3 (sizeof opcao3)
  | 3 => imprime opcao4 (sizeof opcao4)
  | 4 => imprime opcao5 (sizeof opcao5)
  | _ => []

def onMessageSelected (count : Int) : List Stmt :=
  match count with
  | 0 => imprime answer1 (sizeof answer1)
  | 1 => imprime answer2 (sizeof answer2)
  | 2 => imprime answer3 (sizeof answer3)
  | 3 => imprime answer4 (sizeof answer4)
  | 4 => imprime answer5 (sizeof answer5)
  | _ => []

/-- `main` up to its first button read. -/
def start : List Stmt := initializeLcd ++ onMessage 0

/-- `main` from a button read to the next one. -/
def loop : Poll → Word → List Stmt × Poll
  | .menu count, pushbutton =>
    if pushbutton = BUTTON_UP then
      let count := if count + 1 > 4 then 0 else count + 1
      ([usleep 100000] ++ onMessage count, .menu count)
    else if pushbutton = BUTTON_DOWN then
      let count := if count - 1 = -1 then 4 else count - 1
      ([usleep 100000] ++ onMessage count, .menu count)
    else if pushbutton = SELECT then
      ([usleep 100000] ++ onMessageSelected count, .selection count)
    else
      ([usleep 100000], .menu count)
  | .selection count, pushbutton =>
    if pushbutton ≠ 14#32 then
      (onLed count, .selection count)
    else
      (onLed count ++ onMessage count, .menu count)

def main : Machine Stmt Event Poll Word := firmware loop

def boot : Config Stmt Poll := ⟨start, .menu 0⟩

end Standalone
