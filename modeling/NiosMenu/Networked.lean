import NiosMenu.Firmware

/-!
# The networked firmware

`main` and the functions it calls, from the start-up handshakes to the two nested
polling loops. A function without result is the list of its device accesses; the
endless loop of `main` is the reaction of its two control points to a button value.
-/
namespace Networked

open Firmware Reactive

def BUTTON_UP : Word := 11#32
def BUTTON_DOWN : Word := 7#32
def SELECT : Word := 13#32

def connect : List Byte := [0x10, 0x12, 0x00, 0x04, 0x4d, 0x51, 0x54, 0x54, 0x04, 0x02, 0x00, 0x14,
  0x00, 0x06, 0x4e, 0x69, 0x6f, 0x73, 0x20, 0x32]
def comandoSendC : List Byte := cString "AT+CIPSEND=20"

def disconnect : List Byte := [0xe0, 0x00]
def comandoD : List Byte := cString "AT+CIPSEND=2"

def publish1 : List Byte := [0x30, 0x16, 0x00, 0x0C, 0x74, 0x65, 0x73, 0x74, 0x65, 0x2f, 0x74, 0x65,
  0x73, 0x74, 0x65, 0x31, 0x43, 0x41, 0x44, 0x41, 0x53, 0x54, 0x52, 0x4f]
def publish2 : List Byte := [0x30, 0x16, 0x00, 0x0C, 0x74, 0x65, 0x73, 0x74, 0x65, 0x2f, 0x74, 0x65,
  0x73, 0x74, 0x65, 0x31, 0x4c, 0x49, 0x53, 0x54, 0x41, 0x47, 0x45, 0x4d]
def publish3 : List Byte := [0x30, 0x16, 0x00, 0x0C, 0x74, 0x65, 0x73, 0x74, 0x65, 0x2f, 0x74, 0x65,
  0x73, 0x74, 0x65, 0x31, 0x43, 0x4f, 0x4e, 0x46, 0x49, 0x41, 0x52, 0x41]
def publish4 : List Byte := [0x30, 0x16, 0x00, 0x0C, 0x74, 0x65, 0x73, 0x74, 0x65, 0x2f, 0x74, 0x65,
  0x73, 0x74, 0x65, 0x31, 0x43, 0x52, 0x45, 0x44, 0x49, 0x54, 0x4f, 0x53]
def publish5 : List Byte := [0x30, 0x16, 0x00, 0x0C, 0x74, 0x65, 0x73, 0x74, 0x65, 0x2f, 0x74, 0x65,
  0x73, 0x74, 0x65, 0x31, 0x53, 0x49, 0x53, 0x54, 0x45, 0x4d, 0x41, 0x53]
def comandoSendP : List Byte := cString "AT+CIPSEND=24"

def comandoAT0 : List Byte := cString "AT"
def comandoAT1 : List Byte := cString "AT+CWMODE=1"
def comandoAT2 : List Byte := cString "AT+CWJAP=\"GT-I9192\",\"[samsung]\""
def comandoAT3 : List Byte := cString "AT+CIPSTART=\"TCP\",\"192.168.43.137\",1883"

def opcao1 : List Byte := cChars ['c', 'a', 'd', 'a', 's', 't', 'r', 'o'] ++ [multichar '/' '0']
def opcao2 : List Byte := cChars ['l', 'i', 's', 't', 'a', 'g', 'e', 'm'] ++ [multichar '/' '0']
def opcao3 : List Byte := cChars ['r', 'e', 'm', 'o', 'c', 'a', 'o'] ++ [multichar '/' '0']
def opcao4 : List Byte := cChars ['c', 'r', 'e', 'd', 'i', 't', 'o', 's'] ++ [multichar '/' '0']
def opcao5 : List Byte := cChars ['s', 'i', 's', 't', 'e', 'm', 'a', 's'] ++ [multichar '/' '0']

def answer1 : List Byte := cChars ['a', 'n', 's', 'w', 'e', 'r', ' ', '1'] ++ [multichar '/' '0']
def answer2 : List Byte := cChars ['a', 'n', 's', 'w', 'e', 'r', ' ', '2'] ++ [multichar '/' '0']
def answer3 : List Byte := cChars ['a', 'n', 's', 'w', 'e', 'r', ' ', '3'] ++ [multichar '/' '0']
def answer4 : List Byte := cChars ['a', 'n', 's', 'w', 'e', 'r', ' ', '4'] ++ [multichar '/' '0']
def answer5 : List Byte := cChars ['a', 'n', 's', 'w', 'e', 'r', ' ', '5'] ++ [multichar '/' '0']

def initializeLcd : List Stmt := [
  usleep 15000,
  altCiLcd0 0x0 0x38,
  usleep 4100,
  altCiLcd0 0x0 0x38,
  usleep 100,
  altCiLcd0 0x0 0x38,
  usleep 5000,
  altCiLcd0 0x0 0x38,
  usleep 100,
  altCiLcd0 0x0 0x08,
  usleep 100,
  altCiLcd0 0x0 0x0C,
  usleep 100,
  altCiLcd0 0x0 0x06,
  usleep 100,
  altCiLcd0 0x0 0x02,
  usleep 2000,
  altCiLcd0 0x0 0x01,
  usleep 2000]

def imprime (opcao : List Byte) (size : Int) : List Stmt :=
  [usleep 2000,
   altCiLcd0 0x0 0x02,
   usleep 2000,
   altCiLcd0 0x0 0x01] ++
  forLoop (size - 1) (fun i => [usleep 2000, altCiLcd0 0x1 (charAt opcao i)]) ++
  [usleep 2000,
   altCiLcd0 0x0 0x00]

def onLed (count : Int) : List Stmt :=
  match count with
  | 0 => [iowrLeds 7]
  | 1 => [iowrLeds 11]
  | 2 => [iowrLeds 13]
  | 3 => [iowrLeds 14]
  | 4 => [iowrLeds (~~~15)]
  | _ => []

def onMessage (count : Int) : List Stmt :=
  match count with
  | 0 => imprime opcao1 (sizeof opcao1)
  | 1 => imprime opcao2 (sizeof opcao2)
  | 2 => imprime opcao3 (sizeof opcao3)
  | 3 => imprime opcao4 (sizeof opcao4)
  | 4 => imprime opcao5 (sizeof opcao5)
  | _ => []

/-- Wait for the transmitter once, then send the array and CR LF at a fixed pace. -/
def writenUart (vetor : List Byte) (tamanho : Int) : List Stmt :=
  [.pollTrdy] ++
  forLoop tamanho (fun i => [iowrTxdata (charAt vetor i), usleep 1000]) ++
  [iowrTxdata 0x0D, usleep 1000, iowrTxdata 0x0A]

def readUart : List Stmt := [.pollRrdy]

def writenUartQuick (vetor : Byte) (tamanho : Int) : List Stmt :=
  [.pollTrdy] ++ forLoop tamanho (fun _ => [iowrTxdata (promote vetor), usleep 1000])

def connectMQTT : List Stmt :=
  writenUart comandoSendC (strlen comandoSendC) ++
  [usleep 1000000] ++
  forLoop (sizeof connect) (fun z => writenUartQuick (connect.getD z 0) 1) ++
  [iowrTxdata 0x0D, usleep 1000, iowrTxdata 0x0A]

def publishMQTT (publish : List Byte) (size : Int) : List Stmt :=
  [usleep 1000000] ++
  writenUart comandoSendP (strlen comandoSendP) ++
  [usleep 1000000] ++
  forLoop size (fun z => .jtagWrite (publish.getD z 0) :: writenUartQuick (publish.getD z 0) 1) ++
  [iowrTxdata 0x0D, usleep 1000, iowrTxdata 0x0A, usleep 1000000] ++
  writenUart comandoD (strlen comandoD) ++
  [usleep 1000000] ++
  -- `printf` in the source, on the same console
  forLoop (sizeof disconnect)
    (fun z => .jtagWrite (disconnect.getD z 0) :: writenUartQuick (disconnect.getD z 0) 1) ++
  [iowrTxdata 0x0D, usleep 1000, iowrTxdata 0x0A, usleep 1000000]

def onMessageSelected (count : Int) : List Stmt :=
  match count with
  | 0 => imprime answer1 (sizeof answer1) ++ publishMQTT publish1 24
  | 1 => imprime answer2 (sizeof answer2) ++ publishMQTT publish2 24
  | 2 => imprime answer3 (sizeof answer3) ++ publishMQTT publish3 24
  | 3 => imprime answer4 (sizeof answer4) ++ publishMQTT publish4 24
  | 4 => imprime answer5 (sizeof answer5) ++ publishMQTT publish5 24
  | _ => []

/-- `main` up to its first button read. -/
def start : List Stmt :=
  writenUart comandoAT0 (strlen comandoAT0) ++ readUart ++ [usleep 1000000] ++
  writenUart comandoAT1 (strlen comandoAT1) ++ readUart ++ [usleep 1000000] ++
  writenUart comandoAT2 (strlen comandoAT2) ++ readUart ++ [usleep 1000000] ++
  initializeLcd ++ onMessage 0

/-- `main` from a button read to the next one. -/
def loop : Poll → Word → List Stmt × Poll
  | .menu count, pushbutton =>
    if pushbutton = BUTTON_UP then
      let count := if count + 1 > 4 then 0 else count + 1
      ([usleep 100000] ++ onMessage count, .menu count)
    else if pushbutton = BUTTON_DOWN then
      let count := if count - 1 = -1 then 4 else count - 1
      ([usleep 100000] ++ onMessage count, .menu count)
    else if pushbutton = SELECT then
      ([usleep 100000] ++ writenUart comandoAT3 (strlen comandoAT3) ++ readUart ++
        [usleep 1000000] ++ connectMQTT ++ onMessageSelected count ++ altPrintf "Message sent",
        .selection count)
    else
      ([usleep 100000], .menu count)
  | .selection count, pushbutton =>
    if pushbutton ≠ 14#32 then
      (onLed count, .selection count)
    else
      (onLed count ++ onMessage count, .menu count)

def main : Machine Stmt Event Poll Word := firmware loop

def boot : Config Stmt Poll := ⟨start, .menu 0⟩

end Networked
